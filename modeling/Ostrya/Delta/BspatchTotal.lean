/-
**The bspatch decoder, operation by operation** (`bspatch.rs`).

Here every sum is a sum of machine numbers and every access is checked, and the run of bytes of a
block is overlaid byte by byte
through a buffer. `bspatchChecked_eq`: no operation halts, and the decoder writes and returns what
`bspatch` does. `Patches` is the
meaning of a patch as a sequence of blocks, and `bspatchLoop_eq_ok` connects it with the loop.
-/

import Ostrya.Delta.Bspatch
import Ostrya.Effect.Checked

namespace Ostrya.Delta

open ByteFormat Gvariant Ostrya.Core Checked

/-! ### The operations -/

/-- A sum of `usize` numbers. -/
def usize (n : Nat) : Except Halt Nat := unsigned 64 n

/-- One step of the loop of `offtin`. -/
def offtinStep (buf : Bytes) (y : Int) (i : Nat) : Except Halt Int := do
  let byte ← index buf i
  let scaled ← signed 64 (y * 256)
  signed 64 (scaled + byte.toNat)

/-- `offtin`. -/
def offtinChecked (buf : Bytes) : Except Halt Int := do
  let top ← index buf 7
  let y ← (List.range 7).reverse.foldlM (offtinStep buf) ((top.toNat &&& 0x7f : Nat) : Int)
  if top.toNat &&& 0x80 ≠ 0 then signed 64 (-y) else .ok y

/-- `offtin(&stream[cur + first..cur + first + 8].try_into().unwrap())`. -/
def controlNumber (stream : Bytes) (cur first : Nat) : Except Halt Int := do
  let start ← usize (cur + first)
  let stop ← usize (cur + (first + 8))
  let buf ← Checked.slice stream start stop
  if buf.length = 8 then offtinChecked buf else .error .outOfRange

/-- One step of the inner loop of a diff run, with the write into `scratch`. -/
def overlayByte (source stream : Bytes) (spos cur i j : Nat) : Except Halt UInt8 := do
  let from_source ← index source (← usize ((← usize (spos + i)) + j))
  let from_stream ← index stream (← usize ((← usize (cur + i)) + j))
  if j < ioChunk then .ok (from_source + from_stream) else .error .outOfRange

/-- The loop of a diff run: the chunks it writes. -/
def diffRun (source stream : Bytes) (spos cur diffLen : Nat) : (fuel i : Nat) → Except Halt (List Bytes)
  | 0, _ => .error .spent
  | fuel + 1, i =>
    if i < diffLen then do
      let n := min (diffLen - i) ioChunk
      let chunk ← (List.range n).mapM (overlayByte source stream spos cur i)
      let rest ← diffRun source stream spos cur diffLen fuel (← usize (i + n))
      .ok (chunk :: rest)
    else .ok []

/-- What one block writes, and where it leaves the decoder before the seek. -/
structure WrittenBlock where
  pieces : List Bytes
  produced : Nat
  srcEnd : Nat
  extraEnd : Nat
  seek : Int

/-- One round of `bspatch`, up to the seek. -/
def blockChecked (source stream : Bytes) (newSize produced spos cur : Nat) : Run Error WrittenBlock := do
  let ctrlEnd ← may (addOr cur 24 "bspatch control offset overflow")
  if ctrlEnd > stream.length then may (badPatch "bspatch stream truncated at control block")
  else
    let diffNumber ← must (controlNumber stream cur 0)
    let extraNumber ← must (controlNumber stream cur 8)
    let seek ← must (controlNumber stream cur 16)
    let diffLen ← may (toLen diffNumber "diff")
    let extraLen ← may (toLen extraNumber "extra")
    let diffEnd ← may (addOr ctrlEnd diffLen "bspatch diff run overflow")
    let extraEnd ← may (addOr diffEnd extraLen "bspatch extra run overflow")
    if extraEnd > stream.length then may (badPatch "bspatch stream truncated at data run")
    else
      let withDiff ← must (usize (produced + diffLen))
      let withExtra ← must (usize (withDiff + extraLen))
      if withExtra > newSize then may (badPatch "bspatch output exceeds declared size")
      else
        let srcEnd ← may (addOr spos diffLen "bspatch source run overflow")
        if srcEnd > source.length then may (badPatch "bspatch reads past end of source")
        else
          let diff ← must (diffRun source stream spos ctrlEnd diffLen (diffLen + 1) 0)
          let extra ← must (Checked.slice stream diffEnd extraEnd)
          let written ← must (usize (diffLen + extraLen))
          let produced ← must (usize (produced + written))
          may (.ok ⟨diff ++ chunks ioChunk extra, produced, srcEnd, extraEnd, seek⟩)

/-- `apply_seek`: the sum is one of `i128` numbers, and the cast to `usize` drops the high bits. -/
def applySeekChecked (pos : Nat) (seek : Int) : Run Error Nat := do
  let next ← must (signed 128 (pos + seek))
  may (if next < 0 then badPatch "bspatch source seek before start" else .ok (next % 2 ^ 64).toNat)

/-- The seek that ends a block. -/
def seekChecked (source : Bytes) (srcEnd : Nat) (seek : Int) : Run Error Nat := do
  let spos ← applySeekChecked srcEnd seek
  if spos > source.length then may (badPatch "bspatch source seek past end") else may (.ok spos)

/-- The loop of `bspatch`: the pieces it writes and the result it ends with. -/
def bspatchRounds (source stream : Bytes) (newSize : Nat) :
    (fuel : Nat) → (produced spos cur : Nat) → Except Halt (List Bytes × Except Error Unit)
  | 0, _, _, _ => .error .spent
  | fuel + 1, produced, spos, cur =>
    if produced < newSize then do
      match ← (blockChecked source stream newSize produced spos cur).run with
      | .error fault => .ok ([], .error fault)
      | .ok block =>
        match ← (seekChecked source block.srcEnd block.seek).run with
        | .error fault => .ok (block.pieces, .error fault)
        | .ok spos =>
          let rest ← bspatchRounds source stream newSize fuel block.produced spos block.extraEnd
          .ok (block.pieces ++ rest.1, rest.2)
    else .ok ([], .ok ())

/-- `bspatch`. -/
def bspatchChecked (source stream : Bytes) (newSize : Nat) : Except Halt (List Bytes × Except Error Unit) :=
  bspatchRounds source stream newSize (stream.length + 1) 0 0 0

/-! ### No operation halts -/

variable {buf : Bytes}

theorem offtinStep_eq (here : buf[i]? = some byte) (low : 0 ≤ y)
    (high : y < 2 ^ 55) : offtinStep buf y i = .ok (y * 256 + byte.toNat) := by
  have small := byte.toNat_lt
  rw [offtinStep, index, here]
  simp only [ok_bind]
  rw [signed_of_mem (by omega) (by omega), ok_bind, signed_of_mem (by omega) (by omega)]

theorem masks : ∀ n < 256, n &&& 0x7f = n % 128 ∧ (n &&& 0x80 ≠ 0 ↔ 128 ≤ n) := by
  decide +kernel

theorem leNat_take_succ (inside : n < buf.length) :
    leNat (buf.take (n + 1)) = leNat (buf.take n) + 256 ^ n * buf[n].toNat := by
  rw [← List.take_append_getElem inside, leNat_append, List.length_take, Nat.min_eq_left inside.le]
  simp [leNat]

/-- The loop of `offtin` from the top byte down, by induction over the bytes below. -/
theorem offtinLoop_eq {y n : Nat} (inside : n ≤ buf.length) (small : (y + 1) * 256 ^ n ≤ 2 ^ 63) :
    (List.range n).reverse.foldlM (offtinStep buf) (y : Int) =
      .ok ((leNat (buf.take n) + 256 ^ n * y : Nat) : Int) := by
  induction n generalizing y with
  | zero => simp [leNat]
  | succ n ih =>
    have byte := (buf[n]).toNat_lt
    have positive : 0 < 256 ^ n := Nat.pos_of_ne_zero (by simp)
    have scaled : (y + 1) * 256 * 256 ^ n ≤ 2 ^ 63 := by rwa [Nat.mul_assoc, ← Nat.pow_succ']
    have below : (y + 1) * 256 ≤ 2 ^ 63 := (Nat.le_mul_of_pos_right _ positive).trans scaled
    rw [List.range_succ, List.reverse_append, List.reverse_singleton, List.singleton_append, List.foldlM_cons,
      offtinStep_eq (List.getElem?_eq_getElem inside) (by omega) (by omega), ok_bind]
    have next := @ih (y * 256 + buf[n].toNat) (Nat.le_of_lt inside)
      ((Nat.mul_le_mul_right _ (by omega)).trans scaled)
    refine next.trans (congrArg (fun value : Nat => Except.ok (value : Int)) ?_)
    rw [leNat_take_succ inside, Nat.mul_add, Nat.pow_succ, Nat.mul_assoc, Nat.mul_comm 256 y]
    omega

theorem offtinChecked_eq (sized : buf.length = 8) : offtinChecked buf = .ok (offtin buf) := by
  have top := (buf[7]).toNat_lt
  obtain ⟨magnitude, sign⟩ := masks buf[7].toNat top
  have low : leNat (buf.take 7) < 256 ^ 7 := by
    have := leNat_lt (buf.take 7)
    rwa [List.length_take, sized] at this
  have whole : leNat buf = leNat (buf.take 7) + 256 ^ 7 * buf[7].toNat := by
    rw [← leNat_take_succ, List.take_of_length_le (by omega)]
  rw [offtinChecked, index_of_lt (by omega), ok_bind, magnitude, offtinLoop_eq (by omega) (by omega), ok_bind]
  simp only [sign, offtin, whole]
  split
  · rw [signed_of_mem (by omega) (by omega), if_pos (by omega)]
    refine congrArg _ ?_
    omega
  · refine congrArg _ ?_
    omega

theorem offtin_bounds (sized : buf.length = 8) : -2 ^ 63 < offtin buf ∧ offtin buf < 2 ^ 63 := by
  have small : leNat buf < 256 ^ 8 := sized ▸ leNat_lt buf
  simp only [offtin]
  split <;> omega

variable {source stream : Bytes} {newSize produced spos cur diffLen : Nat}

theorem controlNumber_eq (inside : cur + (first + 8) ≤ stream.length) (small : stream.length < 2 ^ 64) :
    controlNumber stream cur first = .ok (offtin (stream.extract (cur + first) (cur + (first + 8)))) := by
  have sized : (stream.extract (cur + first) (cur + (first + 8))).length = 8 := by
    rw [extract_length inside]
    omega
  rw [controlNumber, usize, unsigned_of_lt (by omega), ok_bind, usize, unsigned_of_lt (by omega),
    ok_bind, slice_of_le (by omega) inside, ok_bind, if_pos sized, offtinChecked_eq sized]

/-- The overlaid bytes of a diff run. -/
def overlay (source stream : Bytes) (spos cur diffLen : Nat) : Bytes :=
  List.zipWith (· + ·) (source.extract spos (spos + diffLen)) (stream.extract cur (cur + diffLen))

section Diff

variable (source_in : spos + diffLen ≤ source.length) (stream_in : cur + diffLen ≤ stream.length)
  (source_small : source.length < 2 ^ 64) (stream_small : stream.length < 2 ^ 64)

include source_in stream_in

theorem length_overlay : (overlay source stream spos cur diffLen).length = diffLen := by
  rw [overlay, List.length_zipWith, extract_length source_in, extract_length stream_in]
  omega

include source_small stream_small

theorem overlayBytes_eq (inside : i + n ≤ diffLen) (fits : n ≤ ioChunk) :
    (List.range n).mapM (overlayByte source stream spos cur i) =
      .ok (((overlay source stream spos cur diffLen).drop i).take n) := by
  have length := length_overlay source_in stream_in
  have each : ∀ j ∈ List.range n, overlayByte source stream spos cur i j =
      .ok ((overlay source stream spos cur diffLen)[i + j]?.getD 0) := by
    intro j before
    rw [List.mem_range] at before
    simp only [overlayByte, usize]
    rw [unsigned_of_lt (by omega), ok_bind, unsigned_of_lt (by omega), ok_bind, index_of_lt (by omega), ok_bind,
      unsigned_of_lt (by omega), ok_bind, unsigned_of_lt (by omega), ok_bind, index_of_lt (by omega), ok_bind,
      if_pos (by omega), List.getElem?_eq_getElem (by omega), Option.getD_some]
    simp [overlay, List.extract_eq_take_drop, Nat.add_assoc]
  rw [mapM_of_forall each]
  refine congrArg _ (List.ext_getElem (by simp [length]; omega) fun j mapped _ => ?_)
  have before : i + j < (overlay source stream spos cur diffLen).length := by
    simp only [List.length_map, List.length_range] at mapped
    omega
  simp [List.getElem?_eq_getElem before]

theorem diffRun_eq {fuel rounds i : Nat} (le : i ≤ diffLen) (enough : diffLen - i < fuel)
    (rounds_enough : diffLen - i ≤ rounds) :
    diffRun source stream spos cur diffLen fuel i =
      .ok (chunksFrom ioChunk rounds ((overlay source stream spos cur diffLen).drop i)) := by
  have length := length_overlay source_in stream_in
  induction fuel generalizing i rounds with
  | zero => omega
  | succ fuel ih =>
    have positive : 0 < ioChunk := by decide
    rw [diffRun]
    by_cases more : i < diffLen
    · obtain ⟨rounds, rfl⟩ : ∃ less, rounds = less + 1 := ⟨rounds - 1, by omega⟩
      rw [if_pos more, chunksFrom, if_neg (by simp; omega)]
      simp only [usize]
      rw [overlayBytes_eq source_in stream_in source_small stream_small (by omega) (by omega), ok_bind,
        unsigned_of_lt (by omega), ok_bind, @ih rounds _ (by omega) (by omega) (by omega), ok_bind, List.drop_drop]
      refine congrArg _ (congrArg₂ _ ?_ (congrArg _ ?_))
      · simp
        omega
      · by_cases last : diffLen - i ≤ ioChunk
        · rw [List.drop_eq_nil_of_le (by omega), List.drop_eq_nil_of_le (by omega)]
        · rw [Nat.min_eq_right (by omega)]
    · rw [if_neg more, List.drop_eq_nil_of_le (by omega)]
      cases rounds <;> rfl

end Diff

theorem addOr_eq_ok :
    addOr first second message = .ok sum ↔ first + second ≤ usizeMax ∧ sum = first + second := by
  unfold addOr checkedAdd badPatch
  grind

theorem toLen_eq_ok : toLen value which = .ok len ↔ value = len := by
  unfold toLen badPatch
  grind

theorem map_bind {ε α β γ : Type} (x : Except ε α) (f : α → Except ε β) (g : β → γ) :
    (x >>= f).map g = x >>= fun a => (f a).map g := by
  cases x <;> rfl

/-- What a block of the plain decoder writes. -/
def PatchBlock.written (produced : Nat) (block : PatchBlock) : WrittenBlock :=
  ⟨chunks ioChunk block.diff ++ chunks ioChunk block.extra,
    produced + block.diff.length + block.extra.length, block.srcEnd, block.extraEnd, block.seek⟩

/-- **One round.** No operation before the seek halts. -/
theorem blockChecked_refines (source_small : source.length < 2 ^ 63)
    (room : newSize + stream.length < 2 ^ 64) (more : produced < newSize) :
    Refines (blockChecked source stream newSize produced spos cur)
      ((patchBlock source stream newSize produced spos cur).map (PatchBlock.written produced)) := by
  unfold blockChecked patchBlock
  simp only [map_bind, apply_ite (Except.map _)]
  refine .bind (.result _) fun ctrlEnd control => ?_
  obtain ⟨-, rfl⟩ := addOr_eq_ok.mp control
  refine .ite (fun _ => .result _) fun control_in => ?_
  refine .must (controlNumber_eq (by omega) (by omega)) (.must
    (controlNumber_eq (by omega) (by omega)) (.must (controlNumber_eq (by omega) (by omega)) ?_))
  refine .bind (.result _) fun diffLen _ => .bind (.result _) fun extraLen _ => ?_
  refine .bind (.result _) fun diffEnd diff => .bind (.result _) fun extraEnd extra => ?_
  obtain ⟨-, rfl⟩ := addOr_eq_ok.mp diff
  obtain ⟨-, rfl⟩ := addOr_eq_ok.mp extra
  refine .ite (fun _ => .result _) fun runs_in => ?_
  refine .must (unsigned_of_lt (by omega)) (.must (unsigned_of_lt (by omega)) ?_)
  refine .ite (fun _ => .result _) fun fits => .bind (.result _) fun srcEnd read => ?_
  obtain ⟨-, rfl⟩ := addOr_eq_ok.mp read
  refine .ite (fun _ => .result _) fun read_in => ?_
  have length := @length_overlay source stream spos (cur + 24) diffLen (by omega) (by omega)
  refine .must (@diffRun_eq source stream spos (cur + 24) diffLen (by omega) (by omega) (by omega)
    (by omega) _ diffLen _
    (Nat.zero_le _) (by omega) (by omega)) ?_
  refine .must (slice_of_le (by omega) (by omega))
    (.must (unsigned_of_lt (by omega)) (.must (unsigned_of_lt (by omega)) ?_))
  have extra_length : (stream.extract (cur + 24 + diffLen) (cur + 24 + diffLen + extraLen)).length = extraLen := by
    rw [extract_length (by omega)]
    omega
  refine congrArg (fun block => Except.ok (Except.ok block)) ?_
  change _ = PatchBlock.written produced ⟨overlay source stream spos (cur + 24) diffLen, _, _, _, _⟩
  simp only [PatchBlock.written, chunks, length, extra_length, List.drop_zero, Nat.add_assoc produced]

theorem seekChecked_refines (source_small : source.length < 2 ^ 63) (inside : block.srcEnd ≤ source.length)
    (low : -2 ^ 63 < block.seek) (high : block.seek < 2 ^ 63) :
    Refines (seekChecked source block.srcEnd block.seek) (seekSource source block) := by
  refine .bind ?_ fun spos _ => .ite (fun _ => .result _) fun _ => .result _
  refine .must (signed_of_mem (by omega) (by omega)) ?_
  unfold applySeek
  refine congrArg Except.ok ?_
  split
  · rfl
  · rw [Int.emod_eq_of_lt (by omega) (by omega)]

theorem patchBlock_eq_ok (small : stream.length < 2 ^ 64) (source_small : source.length < 2 ^ 64)
    {block : PatchBlock} : patchBlock source stream newSize produced spos cur = .ok block ↔
      ∃ diffLen extraLen : Nat, cur + 24 + diffLen + extraLen ≤ stream.length ∧
        offtin (stream.extract cur (cur + 8)) = diffLen ∧ offtin (stream.extract (cur + 8) (cur + 16)) = extraLen ∧
        produced + diffLen + extraLen ≤ newSize ∧ spos + diffLen ≤ source.length ∧
        block = ⟨overlay source stream spos (cur + 24) diffLen,
          stream.extract (cur + 24 + diffLen) (cur + 24 + diffLen + extraLen), spos + diffLen,
          cur + 24 + diffLen + extraLen, offtin (stream.extract (cur + 16) (cur + 24))⟩ := by
  have max : usizeMax = 2 ^ 64 - 1 := rfl
  unfold patchBlock
  constructor
  · intro run
    obtain ⟨ctrlEnd, control, run⟩ := bind_eq_ok.mp run
    obtain ⟨-, rfl⟩ := addOr_eq_ok.mp control
    split at run
    · cases run
    obtain ⟨diffLen, diff_len, run⟩ := bind_eq_ok.mp run
    obtain ⟨extraLen, extra_len, run⟩ := bind_eq_ok.mp run
    obtain ⟨diffEnd, diff, run⟩ := bind_eq_ok.mp run
    obtain ⟨-, rfl⟩ := addOr_eq_ok.mp diff
    obtain ⟨extraEnd, extra, run⟩ := bind_eq_ok.mp run
    obtain ⟨-, rfl⟩ := addOr_eq_ok.mp extra
    split at run
    · cases run
    split at run
    · cases run
    obtain ⟨srcEnd, read, run⟩ := bind_eq_ok.mp run
    obtain ⟨-, rfl⟩ := addOr_eq_ok.mp read
    split at run
    · cases run
    cases run
    exact ⟨diffLen, extraLen, by omega, toLen_eq_ok.mp diff_len, toLen_eq_ok.mp extra_len, by omega, by omega, rfl⟩
  · rintro ⟨diffLen, extraLen, inside, diff_len, extra_len, fits, reads, rfl⟩
    rw [addOr_eq_ok.mpr ⟨by omega, rfl⟩, ok_bind, if_neg (by omega), toLen_eq_ok.mpr diff_len, ok_bind,
      toLen_eq_ok.mpr extra_len, ok_bind, addOr_eq_ok.mpr ⟨by omega, rfl⟩, ok_bind, addOr_eq_ok.mpr ⟨by omega, rfl⟩,
      ok_bind, if_neg (by omega), if_neg (by omega), addOr_eq_ok.mpr ⟨by omega, rfl⟩, ok_bind, if_neg (by omega)]
    rfl

theorem patchBlock_ends (small : stream.length < 2 ^ 64) (source_small : source.length < 2 ^ 64)
    (found : patchBlock source stream newSize produced spos cur = .ok block) :
    block.srcEnd ≤ source.length ∧ cur + 24 ≤ block.extraEnd ∧ block.extraEnd ≤ stream.length ∧
      -2 ^ 63 < block.seek ∧ block.seek < 2 ^ 63 := by
  obtain ⟨diffLen, extraLen, runs_in, -, -, -, reads, rfl⟩ := (patchBlock_eq_ok small source_small).mp found
  refine ⟨reads, Nat.le_add_right_of_le (Nat.le_add_right _ _), runs_in, offtin_bounds ?_⟩
  rw [extract_length (by omega)]
  omega

/-- **The whole run.** No operation halts, and every round consumes its control bytes. -/
theorem bspatchRounds_eq (source_small : source.length < 2 ^ 63) (room : newSize + stream.length < 2 ^ 64)
    (inside : cur ≤ stream.length) (enough : stream.length - cur < fuel) :
    bspatchRounds source stream newSize fuel produced spos cur =
      .ok (bspatchLoop source stream newSize fuel produced spos cur) := by
  induction fuel generalizing produced spos cur with
  | zero => omega
  | succ fuel ih =>
    rw [bspatchRounds, bspatchLoop]
    by_cases more : produced < newSize
    · rw [if_pos more, if_neg (by omega), blockChecked_refines source_small room more, ok_bind]
      cases found : patchBlock source stream newSize produced spos cur with
      | error fault => rfl
      | ok block =>
        obtain ⟨reads, onward, runs_in, low, high⟩ := patchBlock_ends (by omega) (by omega) found
        simp only [map_ok, PatchBlock.written]
        rw [seekChecked_refines source_small reads low high, ok_bind]
        cases seekSource source block with
        | error fault => rfl
        | ok next =>
          dsimp only
          rw [ih runs_in (by omega)]
          rfl
    · rw [if_neg more, if_pos (by omega)]

/-! ### What a patch means -/

/-- The stream starts with blocks that make `out`, of `left` bytes, out of the source from `spos`
on. The last block is the first that leaves nothing to write. -/
inductive Patches (source : Bytes) : (left spos : Nat) → (stream out : Bytes) → Prop
  | done {spos : Nat} {stream : Bytes} : Patches source 0 spos stream []
  | block {left spos next : Nat} {first second third diff extra rest out : Bytes} (more : 0 < left)
      (diff_number : first.length = 8) (extra_number : second.length = 8) (seek_number : third.length = 8)
      (diff_len : offtin first = diff.length) (extra_len : offtin second = extra.length)
      (fits : diff.length + extra.length ≤ left) (reads : spos + diff.length ≤ source.length)
      (seeks : ((spos + diff.length : Nat) : Int) + offtin third = next) (inside : next ≤ source.length)
      (others : Patches source (left - (diff.length + extra.length)) next rest out) :
      Patches source left spos (first ++ (second ++ (third ++ (diff ++ (extra ++ rest)))))
        (List.zipWith (· + ·) (source.extract spos (spos + diff.length)) diff ++ (extra ++ out))

theorem seekSource_eq_ok {block : PatchBlock} {next : Nat} :
    seekSource source block = .ok next ↔ (block.srcEnd : Int) + block.seek = next ∧ next ≤ source.length := by
  unfold seekSource applySeek badPatch
  simp only [bind_eq_ok]
  grind

theorem drop_eq_extract_append {bytes : Bytes} (ordered : first ≤ last) :
    bytes.drop first = bytes.extract first last ++ bytes.drop last := by
  obtain ⟨n, rfl⟩ := Nat.exists_eq_add_of_le ordered
  rw [List.extract_eq_take_drop, Nat.add_sub_cancel_left, ← List.drop_drop, List.take_append_drop]

theorem extract_of_drop {bytes part rest : Bytes} (inside : first ≤ bytes.length)
    (here : bytes.drop first = part ++ rest) :
    first + part.length ≤ bytes.length ∧ bytes.extract first (first + part.length) = part ∧
      bytes.drop (first + part.length) = rest := by
  have length := congrArg List.length here
  rw [List.length_drop, List.length_append] at length
  refine ⟨by omega, ?_, ?_⟩
  · rw [List.extract_eq_take_drop, Nat.add_sub_cancel_left, here, List.take_left]
  · rw [← List.drop_drop, here, List.drop_left]

/-- **The loop returns exactly on a patch**, and writes what it means. -/
theorem bspatchLoop_eq_ok (small : stream.length < 2 ^ 64) (source_small : source.length < 2 ^ 64) {fuel : Nat}
    (inside : cur ≤ stream.length) (enough : stream.length - cur < fuel) (le : produced ≤ newSize) :
    ((bspatchLoop source stream newSize fuel produced spos cur).2 = .ok () ∧
        (bspatchLoop source stream newSize fuel produced spos cur).1.flatten = out) ↔
      Patches source (newSize - produced) spos (stream.drop cur) out := by
  induction fuel generalizing produced spos cur out with
  | zero => omega
  | succ fuel ih =>
    rw [bspatchLoop]
    by_cases more : produced ≥ newSize
    · rw [if_pos more, Nat.sub_eq_zero_of_le more]
      constructor
      · rintro ⟨-, rfl⟩
        exact .done
      · intro patches
        generalize stream.drop cur = tail at patches
        cases patches with
        | done => exact ⟨rfl, rfl⟩
        | block more => omega
    · rw [if_neg more]
      constructor
      · intro written
        cases found : patchBlock source stream newSize produced spos cur with
        | error fault => simp [found] at written
        | ok block =>
          cases sought : seekSource source block with
          | error fault => simp [found, sought] at written
          | ok next =>
            obtain ⟨diffLen, extraLen, runs_in, diff_len, extra_len, fits, reads, rfl⟩ :=
              (patchBlock_eq_ok small source_small).mp found
            obtain ⟨seeks, in_source⟩ := seekSource_eq_ok.mp sought
            have diff_length := @length_overlay source stream spos (cur + 24) diffLen (by omega) (by omega)
            have length := fun {first last : Nat} => @extract_length stream first last
            simp only [found, sought, List.flatten_append, chunks_flatten (show 0 < ioChunk by decide)] at written
            obtain ⟨returns, rfl⟩ := written
            have extra_length := @length (cur + 24 + diffLen) _ runs_in
            have others := (ih runs_in (by omega) (by omega)).mp ⟨returns, rfl⟩
            generalize (bspatchLoop source stream newSize fuel _ next _).1.flatten = out at others ⊢
            rw [drop_eq_extract_append (show cur ≤ cur + 8 by omega),
              drop_eq_extract_append (show cur + 8 ≤ cur + 16 by omega),
              drop_eq_extract_append (show cur + 16 ≤ cur + 24 by omega),
              drop_eq_extract_append (Nat.le_add_right (cur + 24) diffLen),
              drop_eq_extract_append (Nat.le_add_right (cur + 24 + diffLen) extraLen), List.append_assoc]
            have run_length := @length (cur + 24) (cur + 24 + diffLen) (by omega)
            rw [Nat.add_sub_cancel_left] at run_length extra_length
            rw [diff_length, extra_length, Nat.add_assoc, ← Nat.sub_sub] at others
            have block := fun {rest out : Bytes} => @Patches.block source (newSize - produced) spos
              next (stream.extract cur (cur + 8)) (stream.extract (cur + 8) (cur + 16))
                (stream.extract (cur + 16) (cur + 24))
              (stream.extract (cur + 24) (cur + 24 + diffLen))
              (stream.extract (cur + 24 + diffLen) (cur + 24 + diffLen + extraLen)) rest out
            simp only [run_length, extra_length] at block
            exact block (by omega) (by rw [length] <;> omega) (by rw [length] <;> omega)
              (by rw [length] <;> omega) diff_len
              extra_len (by omega) reads seeks in_source others
      · intro patches
        generalize here : stream.drop cur = tail at patches
        generalize left_is : newSize - produced = left at patches
        cases patches with
        | done => omega
        | @block _ _ next first second third diff extra rest out _ diff_number extra_number
            seek_number diff_len extra_len
            fits reads seeks in_source others =>
          obtain ⟨inside, is_first, here⟩ := extract_of_drop inside here
          obtain ⟨inside, is_second, here⟩ := extract_of_drop inside here
          obtain ⟨inside, is_third, here⟩ := extract_of_drop inside here
          obtain ⟨inside, is_diff, here⟩ := extract_of_drop inside here
          obtain ⟨inside, is_extra, rfl⟩ := extract_of_drop inside here
          rw [diff_number] at is_first is_second is_third is_diff is_extra others inside
          rw [extra_number] at is_second is_third is_diff is_extra others inside
          rw [seek_number] at is_third is_diff is_extra others inside
          have found := (@patchBlock_eq_ok source stream newSize produced spos cur small source_small _).mpr
            ⟨diff.length, extra.length, inside, (congrArg offtin is_first).trans diff_len,
              (congrArg offtin is_second).trans extra_len, by omega, reads, rfl⟩
          have sought := (@seekSource_eq_ok source ⟨overlay source stream spos (cur + 24) diff.length,
            stream.extract (cur + 24 + diff.length) (cur + 24 + diff.length + extra.length), spos + diff.length,
            cur + 24 + diff.length + extra.length, offtin (stream.extract (cur + 16) (cur + 24))⟩ next).mpr
            ⟨(congrArg (_ + ·) (congrArg offtin is_third)).trans seeks, in_source⟩
          have length := @length_overlay source stream spos (cur + 24) diff.length reads (by omega)
          rw [← left_is, Nat.sub_sub, ← Nat.add_assoc] at others
          obtain ⟨returns, rest⟩ := (ih inside (by omega) (by omega)).mpr others
          rw [found]
          dsimp only
          rw [sought]
          rw [length, is_extra]
          refine ⟨returns, ?_⟩
          rw [List.flatten_append, List.flatten_append, chunks_flatten (by decide),
            chunks_flatten (by decide), rest, overlay,
            is_diff, List.append_assoc]

/-- **The decoder is total and exact.** -/
theorem bspatch_total_exact (source stream : Slice 64 UInt8) (newSize : Nat)
    (room : newSize + stream.items.length < 2 ^ 64) :
    ∃ pieces result, bspatchChecked source.items stream.items newSize = .ok (pieces, result) ∧
      ∀ out, (result = .ok () ∧ pieces.flatten = out) ↔ Patches source.items newSize 0 stream.items out := by
  have source_small := source.fits
  refine ⟨_, _, bspatchRounds_eq source_small room (Nat.zero_le _) (Nat.lt_succ_self _), fun out => ?_⟩
  exact bspatchLoop_eq_ok (by omega) (by omega) (Nat.zero_le _) (Nat.lt_succ_self _) (Nat.zero_le _)

/-- One block: a byte over the source and a byte of its own. -/
theorem bspatch_total_exact_block : ∃ pieces, bspatchChecked [1, 2]
      [1, 0, 0, 0, 0, 0, 0, 0, 1, 0, 0, 0, 0, 0, 0, 0, 0, 0, 0, 0, 0, 0, 0, 0, 5, 9] 2 = .ok (pieces, .ok ()) ∧
    pieces.flatten = [6, 9] := by
  obtain ⟨pieces, result, run, exact_at⟩ := bspatch_total_exact ⟨[1, 2], by decide⟩
    ⟨[1, 0, 0, 0, 0, 0, 0, 0, 1, 0, 0, 0, 0, 0, 0, 0, 0, 0, 0, 0, 0, 0, 0, 0, 5, 9], by decide⟩ 2 (by decide)
  obtain ⟨rfl, written⟩ := (exact_at [6, 9]).mpr (@Patches.block [1, 2] 2 0 1 [1, 0, 0, 0, 0, 0, 0, 0]
    [1, 0, 0, 0, 0, 0, 0, 0] [0, 0, 0, 0, 0, 0, 0, 0] [5] [9] [] [] (by decide) rfl rfl rfl (by decide +kernel)
    (by decide +kernel) (by decide) (by decide) (by decide +kernel) (by decide) .done)
  exact ⟨pieces, run, written⟩

end Ostrya.Delta
