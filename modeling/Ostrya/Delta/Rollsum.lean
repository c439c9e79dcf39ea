/-
**The copy plan of a rollsum delta** (`rollsum.rs`).

A rolling hash cuts both objects into chunks. A target chunk that occurs in the source becomes a copy run,
and every other chunk a payload run; adjacent runs merge. Whatever the hash and the digest find, a match is
accepted only after a comparison of the bytes, so `plan_rebuilds` needs nothing of either: the runs, in
order, give the target.
-/

import Ostrya.ByteFormat.Tiling

namespace Ostrya.Delta.Rollsum

open ByteFormat

/-- `WINDOW`. -/
def windowSize : Nat := 64

/-- `MASK`. -/
def mask : UInt32 := (1 : UInt32) <<< 13 - 1

/-- `MIN_CHUNK`. -/
def minChunk : Nat := 2 * 1024

/-- `MAX_CHUNK`. -/
def maxChunk : Nat := 64 * 1024

/-! ### Chunks -/

/-- `Rollsum`. -/
structure Roll where
  a : UInt32
  b : UInt32
  window : List UInt8

/-- `Rollsum::default`. -/
def Roll.default : Roll := ⟨0, 0, List.replicate windowSize 0⟩

/-- `Rollsum::push`. -/
def Roll.push (roll : Roll) (byte : UInt8) (pos : Nat) : Roll :=
  let slot := pos % windowSize
  let dropped := roll.window.getD slot 0
  let a := roll.a + byte.toUInt32 - dropped.toUInt32
  ⟨a, roll.b + a - windowSize.toUInt32 * dropped.toUInt32, roll.window.set slot byte⟩

/-- `Rollsum::at_boundary`. -/
def Roll.atBoundary (roll : Roll) : Bool := roll.b &&& mask == mask

/-- The loop of `chunk_len`, from position `i`. -/
def boundary (roll : Roll) (i : Nat) : List UInt8 → Option Nat
  | [] => none
  | byte :: rest =>
    let roll := roll.push byte i
    if i + 1 ≥ minChunk ∧ roll.atBoundary then some (i + 1) else boundary roll (i + 1) rest

/-- `chunk_len`. -/
def chunkLen (data : List UInt8) : Nat :=
  let limit := min data.length maxChunk
  (boundary .default 0 (data.take limit)).getD limit

/-- `chunks`, from `start`. -/
def chunksFrom (data : List UInt8) : (fuel start : Nat) → List (Nat × Nat)
  | 0, _ => []
  | fuel + 1, start =>
    if start ≥ data.length then []
    else
      let len := chunkLen (data.drop start)
      (start, len) :: chunksFrom data fuel (start + len)

/-- `chunks`. A chunk is not empty, so the length of the data is enough fuel. -/
def chunks (data : List UInt8) : List (Nat × Nat) := chunksFrom data data.length 0

theorem boundary_le (found : boundary roll i data = some stop) :
    i < stop ∧ stop ≤ i + data.length := by
  induction data generalizing roll i with
  | nil => cases found
  | cons byte rest ih =>
    rw [boundary] at found
    rw [List.length_cons]
    split at found
    · cases found; omega
    · have := ih found; omega

/-- A chunk of nonempty data is not empty and lies in the data. -/
theorem chunkLen_bounds (nonempty : 0 < data.length) :
    0 < chunkLen data ∧ chunkLen data ≤ data.length := by
  have limited : 0 < min data.length maxChunk := Nat.lt_min.mpr ⟨nonempty, by decide⟩
  have within := Nat.min_le_left data.length maxChunk
  have len : chunkLen data = (boundary .default 0 (data.take (min data.length maxChunk))).getD
    (min data.length maxChunk) := rfl
  rw [len]
  cases found : boundary .default 0 (data.take (min data.length maxChunk)) with
  | none => exact ⟨limited, within⟩
  | some stop =>
    have bounds := boundary_le found
    rw [List.length_take, Nat.zero_add] at bounds
    exact ⟨bounds.1, bounds.2.trans (Nat.min_le_right _ _)⟩

/-! ### The plan -/

/-- `Run`. -/
inductive Run where
  | copy (sourceOffset length : Nat)
  | payload (targetOffset length : Nat)
  deriving DecidableEq

/-- `Plan`. -/
structure Plan where
  runs : List Run
  copied : Nat

/-- `push_copy`. -/
def Plan.pushCopy (plan : Plan) (sourceOffset length : Nat) : Plan :=
  match plan.runs.getLast? with
  | some (.copy prevOff prevLen) =>
    if prevOff + prevLen = sourceOffset then
      ⟨plan.runs.dropLast ++ [.copy prevOff (prevLen + length)], plan.copied + length⟩
    else ⟨plan.runs ++ [.copy sourceOffset length], plan.copied + length⟩
  | _ => ⟨plan.runs ++ [.copy sourceOffset length], plan.copied + length⟩

/-- `push_payload`. -/
def Plan.pushPayload (plan : Plan) (targetOffset length : Nat) : Plan :=
  match plan.runs.getLast? with
  | some (.payload prevOff prevLen) =>
    if prevOff + prevLen = targetOffset then
      ⟨plan.runs.dropLast ++ [.payload prevOff (prevLen + length)], plan.copied⟩
    else ⟨plan.runs ++ [.payload targetOffset length], plan.copied⟩
  | _ => ⟨plan.runs ++ [.payload targetOffset length], plan.copied⟩

/-- `digest_of`: FNV-1a. -/
def digestOf (chunk : List UInt8) : UInt64 :=
  chunk.foldl (fun hash byte => (hash ^^^ byte.toUInt64) * 0x100000001b3) 0xcbf29ce484222325

/-- `index_source`: the digest and the offset of each chunk, in order. -/
def indexSource (source : List UInt8) : List (UInt64 × Nat) :=
  (chunks source).map fun chunk => (digestOf (source.extract chunk.1 (chunk.1 + chunk.2)), chunk.1)

/-- `source[off..].starts_with(chunk)`. -/
def startsAt (source chunk : List UInt8) (off : Nat) : Bool := chunk.isPrefixOf (source.drop off)

/-- The source offset that continues the current run. -/
def Plan.contiguous (plan : Plan) : Option Nat :=
  match plan.runs.getLast? with
  | some (.copy sourceOffset length) => some (sourceOffset + length)
  | _ => none

/-- Where a chunk occurs in the source. -/
def hit (source : List UInt8) (index : List (UInt64 × Nat)) (plan : Plan) (chunk : List UInt8) : Option Nat :=
  (plan.contiguous.filter (startsAt source chunk)).or
    (((index.filter fun entry => entry.1 == digestOf chunk).map Prod.snd).find? (startsAt source chunk))

/-- One chunk of the loop of `plan`. -/
def planStep (source target : List UInt8) (index : List (UInt64 × Nat)) (plan : Plan) (chunk : Nat × Nat) : Plan :=
  match hit source index plan (target.extract chunk.1 (chunk.1 + chunk.2)) with
  | some off => plan.pushCopy off chunk.2
  | none => plan.pushPayload chunk.1 chunk.2

/-- `plan`. -/
def plan (source target : List UInt8) : Plan :=
  (chunks target).foldl (planStep source target (indexSource source)) ⟨[], 0⟩

/-! ### What the runs rebuild -/

section Rebuild

variable {source target : List UInt8}

/-- The bytes of a run. -/
def Run.bytes (source target : List UInt8) : Run → List UInt8
  | copy off length => source.extract off (off + length)
  | payload off length => target.extract off (off + length)

/-- A run that lies in the object it reads. -/
def Run.Inside (source target : List UInt8) : Run → Prop
  | copy off length => off + length ≤ source.length
  | payload off length => off + length ≤ target.length

/-- The runs rebuild the first `stop` bytes of the target. -/
structure Rebuilds (source target : List UInt8) (runs : List Run) (stop : Nat) : Prop where
  bytes : runs.flatMap (Run.bytes source target) = target.take stop
  inside : ∀ run ∈ runs, run.Inside source target
  within : stop ≤ target.length

theorem take_append_extract :
    target.take start ++ target.extract start (start + len) = target.take (start + len) := by
  rw [← extract_zero_eq_take, ← extract_zero_eq_take,
    extract_append_extract (Nat.zero_le _) (Nat.le_add_right _ _)]

theorem Rebuilds.push (rebuilds : Rebuilds source target runs stop)
    (run : Run) (bytes : run.bytes source target = target.extract stop (stop + len))
    (inside : run.Inside source target) (within : stop + len ≤ target.length) :
    Rebuilds source target (runs ++ [run]) (stop + len) where
  bytes := by rw [List.flatMap_append, rebuilds.bytes, List.flatMap_singleton, bytes, take_append_extract]
  inside := by
    intro other member
    rcases List.mem_append.mp member with earlier | last
    · exact rebuilds.inside other earlier
    · rw [List.mem_singleton.mp last]; exact inside
  within := within

theorem Rebuilds.extend {runs : List Run} {stop len : Nat} (rebuilds : Rebuilds source target runs stop)
    {last extended : Run} (isLast : runs.getLast? = some last)
    (bytes : extended.bytes source target = last.bytes source target ++ target.extract stop (stop + len))
    (inside : extended.Inside source target) (within : stop + len ≤ target.length) :
    Rebuilds source target (runs.dropLast ++ [extended]) (stop + len) where
  bytes := by
    have split : runs.dropLast ++ [last] = runs := List.dropLast_append_getLast? last isLast
    have before := rebuilds.bytes
    rw [← split, List.flatMap_append, List.flatMap_singleton] at before
    rw [List.flatMap_append, List.flatMap_singleton, bytes, ← List.append_assoc, before, take_append_extract]
  inside := by
    intro other member
    rcases List.mem_append.mp member with earlier | last
    · exact rebuilds.inside other (List.dropLast_subset _ earlier)
    · rw [List.mem_singleton.mp last]; exact inside
  within := within

theorem Rebuilds.pushCopy {plan : Plan} (rebuilds : Rebuilds source target plan.runs stop)
    (occurs : source.extract off (off + len) = target.extract stop (stop + len))
    (inside : off + len ≤ source.length) (within : stop + len ≤ target.length) :
    Rebuilds source target (plan.pushCopy off len).runs (stop + len) := by
  have fresh := rebuilds.push (.copy off len) occurs inside within
  unfold Plan.pushCopy
  split
  · next prevOff prevLen isLast =>
    split
    · next meets =>
      subst meets
      refine rebuilds.extend isLast ?_ (by rw [Run.Inside]; omega) within
      rw [Run.bytes, Run.bytes, ← occurs, extract_append_extract (by omega) (by omega), Nat.add_assoc]
    · exact fresh
  · exact fresh

theorem Rebuilds.pushPayload {plan : Plan} (rebuilds : Rebuilds source target plan.runs stop)
    (within : stop + len ≤ target.length) :
    Rebuilds source target (plan.pushPayload stop len).runs (stop + len) := by
  have fresh := rebuilds.push (.payload stop len) rfl within within
  unfold Plan.pushPayload
  split
  · next prevOff prevLen isLast =>
    split
    · next meets =>
      subst meets
      refine rebuilds.extend isLast ?_ (by rw [Run.Inside]; omega) within
      rw [Run.bytes, Run.bytes, extract_append_extract (by omega) (by omega), Nat.add_assoc]
    · exact fresh
  · exact fresh

/-- A match is a comparison of bytes. -/
theorem startsAt_of_hit {plan : Plan} {chunk : List UInt8}
    (found : hit source index plan chunk = some off) : startsAt source chunk off = true := by
  rcases Option.or_eq_some_iff.mp found with continued | ⟨-, indexed⟩
  · exact (Option.filter_eq_some_iff.mp continued).2
  · exact List.find?_some indexed

/-- **One chunk.** -/
theorem planStep_rebuilds {index : List (UInt64 × Nat)} {plan : Plan}
    (rebuilds : Rebuilds source target plan.runs stop) (positive : 0 < len) (within : stop + len ≤ target.length) :
    Rebuilds source target (planStep source target index plan (stop, len)).runs (stop + len) := by
  unfold planStep
  split
  · next off found =>
    obtain ⟨rest, split⟩ := List.isPrefixOf_iff_prefix.mp (startsAt_of_hit found)
    have length : (target.extract stop (stop + len)).length = len := by
      rw [extract_length within, Nat.add_sub_cancel_left]
    have inside : off + len ≤ source.length := by
      have total := congrArg List.length split
      rw [List.length_append, length, List.length_drop] at total
      omega
    refine rebuilds.pushCopy ?_ inside within
    rw [List.extract_eq_take_drop, Nat.add_sub_cancel_left, ← split, List.take_left' length]
  · exact rebuilds.pushPayload within

/-- **All the chunks**, from a position of the target on. -/
theorem chunks_rebuild {index : List (UInt64 × Nat)} {plan : Plan} {fuel start : Nat}
    (enough : target.length ≤ start + fuel) (rebuilds : Rebuilds source target plan.runs start) :
    Rebuilds source target
      ((chunksFrom target fuel start).foldl (planStep source target index) plan).runs target.length := by
  induction fuel generalizing plan start with
  | zero =>
    obtain rfl : start = target.length := le_antisymm rebuilds.within enough
    exact rebuilds
  | succ fuel ih =>
    rw [chunksFrom]
    split
    · next done =>
      obtain rfl : start = target.length := le_antisymm rebuilds.within done
      exact rebuilds
    · grind [List.length_drop, chunkLen_bounds, planStep_rebuilds]

/-- **The plan rebuilds the target.** -/
theorem plan_rebuilds (source target : List UInt8) :
    (plan source target).runs.flatMap (Run.bytes source target) = target ∧
      ∀ run ∈ (plan source target).runs, run.Inside source target := by
  have start : Rebuilds source target (⟨[], 0⟩ : Plan).runs 0 := ⟨rfl, by simp, Nat.zero_le _⟩
  have whole := @chunks_rebuild _ _ (indexSource source) _ target.length _ (by omega) start
  exact ⟨by simpa [plan, chunks] using whole.bytes, whole.inside⟩

end Rebuild

/-! ### What the runs count -/

def Run.length : Run → Nat
  | copy _ length | payload _ length => length

/-- The bytes that a run copies from the source. -/
def Run.copied : Run → Nat
  | copy _ length => length
  | payload _ _ => 0

/-- No run is empty, and the copies are counted. -/
structure Plan.Counted (plan : Plan) : Prop where
  nonempty : ∀ run ∈ plan.runs, 0 < run.length
  copied : plan.copied = (plan.runs.map Run.copied).sum

theorem Plan.Counted.push {plan : Plan} (counted : plan.Counted) (positive : 0 < run.length) :
    Plan.Counted ⟨plan.runs ++ [run], plan.copied + run.copied⟩ where
  nonempty := List.forall_mem_append.mpr ⟨counted.nonempty, by simpa using positive⟩
  copied := by simp [counted.copied]

theorem Plan.Counted.extend {plan : Plan} (counted : plan.Counted) {last extended : Run}
    (isLast : plan.runs.getLast? = some last) (positive : 0 < extended.length) {more : Nat}
    (copied : extended.copied = last.copied + more) :
    Plan.Counted ⟨plan.runs.dropLast ++ [extended], plan.copied + more⟩ where
  nonempty := List.forall_mem_append.mpr
    ⟨fun run member => counted.nonempty run (List.dropLast_subset _ member), by simpa using positive⟩
  copied := by
    have split : plan.runs.dropLast ++ [last] = plan.runs := List.dropLast_append_getLast? last isLast
    rw [counted.copied, ← split]
    simp [copied, Nat.add_assoc]

theorem planStep_counted {source target : List UInt8} {plan : Plan} (counted : plan.Counted)
    (positive : 0 < len) : (planStep source target index plan (start, len)).Counted := by
  unfold planStep
  split
  · next off _ =>
    have fresh : Plan.Counted ⟨plan.runs ++ [.copy off len], plan.copied + len⟩ := counted.push positive
    unfold Plan.pushCopy
    split
    · next isLast =>
      split
      · exact counted.extend isLast (Nat.lt_of_lt_of_le positive (Nat.le_add_left _ _)) rfl
      · exact fresh
    · exact fresh
  · have fresh : Plan.Counted ⟨plan.runs ++ [.payload start len], plan.copied⟩ := counted.push positive
    unfold Plan.pushPayload
    split
    · next isLast =>
      split
      · exact @Plan.Counted.extend _ counted _ _ isLast (Nat.lt_of_lt_of_le positive (Nat.le_add_left _ _)) 0 rfl
      · exact fresh
    · exact fresh

theorem chunks_counted {source target : List UInt8} {plan : Plan} (counted : plan.Counted)
    (fuel start : Nat) : ((chunksFrom target fuel start).foldl (planStep source target index) plan).Counted := by
  induction fuel generalizing plan start with
  | zero => exact counted
  | succ fuel ih =>
    rw [chunksFrom]
    split
    · exact counted
    · next more =>
      have rest : 0 < (target.drop start).length := by
        rw [List.length_drop]
        omega
      exact ih (planStep_counted counted (chunkLen_bounds rest).1) _

/-- **The plan is a correct diff.** Its runs, in order, give the target; each lies in the object
that it reads and is not empty, and the copied bytes are counted. -/
theorem plan_is_diff (source target : List UInt8) :
    (plan source target).runs.flatMap (Run.bytes source target) = target ∧
      (∀ run ∈ (plan source target).runs, run.Inside source target ∧ 0 < run.length) ∧
      (plan source target).copied = ((plan source target).runs.map Run.copied).sum := by
  obtain ⟨bytes, inside⟩ := plan_rebuilds source target
  have counted : (plan source target).Counted := chunks_counted ⟨by simp, rfl⟩ _ _
  exact ⟨bytes, fun run member => ⟨inside run member, counted.nonempty run member⟩, counted.copied⟩

/-! ### What the plan copies -/

/-- The bytes of a chunk. -/
def bytesOf (data : List UInt8) (chunk : Nat × Nat) : List UInt8 := data.extract chunk.1 (chunk.1 + chunk.2)

theorem copied_planStep (source target : List UInt8) (index : List (UInt64 × Nat)) (plan : Plan)
    (chunk : Nat × Nat) : (planStep source target index plan chunk).copied =
      plan.copied + if (hit source index plan (bytesOf target chunk)).isSome then chunk.2 else 0 := by
  unfold planStep Plan.pushCopy Plan.pushPayload bytesOf
  grind

/-- A chunk of the source is found. -/
theorem hit_of_chunk {source : List UInt8} (member : chunk ∈ chunks source) (plan : Plan) :
    (hit source (indexSource source) plan (bytesOf source chunk)).isSome := by
  have starts : startsAt source (bytesOf source chunk) chunk.1 = true := by
    rw [startsAt, List.isPrefixOf_iff_prefix, bytesOf, List.extract_eq_take_drop]
    exact List.take_prefix _ _
  have indexed : (digestOf (bytesOf source chunk), chunk.1) ∈ indexSource source := List.mem_map_of_mem member
  rw [hit, Option.isSome_or, Bool.or_eq_true, List.find?_isSome]
  refine .inr ⟨chunk.1, List.mem_map.mpr ⟨_, List.mem_filter.mpr ⟨indexed, beq_self_eq_true _⟩, rfl⟩, starts⟩

/-- **What both objects have as a chunk is copied.** -/
theorem shared_chunks_copied (source target : List UInt8) :
    (((chunks target).filter fun chunk => bytesOf target chunk ∈ (chunks source).map
      (bytesOf source)).map Prod.snd).sum ≤
      (plan source target).copied := by
  have fold : ∀ (parts : List (Nat × Nat)) (plan : Plan), plan.copied + ((parts.filter fun chunk =>
      bytesOf target chunk ∈ (chunks source).map (bytesOf source)).map Prod.snd).sum ≤
        (parts.foldl (planStep source target (indexSource source)) plan).copied := by
    intro parts
    induction parts with
    | nil => simp
    | cons chunk parts ih =>
      intro plan
      refine .trans ?_ (ih (planStep source target (indexSource source) plan chunk))
      rw [copied_planStep, List.filter_cons]
      split_ifs with shared found found
      · simp only [List.map_cons, List.sum_cons]
        omega
      · obtain ⟨own, member, same⟩ := List.mem_map.mp (of_decide_eq_true shared)
        exact absurd (same ▸ hit_of_chunk member plan) found
      all_goals omega
  simpa [plan] using fold (chunks target) ⟨[], 0⟩

end Ostrya.Delta.Rollsum
