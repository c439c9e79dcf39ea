/-
**The bspatch decoder** (`bspatch.rs`).

A patch is a sequence of blocks: three signed lengths, a run that is added to the source, a run that is
copied. The control flow does not depend on what the writer of the output does, so the decoder is the list
of pieces it writes, in order, and the result it ends with.
-/

import Ostrya.Delta.Store

namespace Ostrya.Delta

open ByteFormat Gvariant Ostrya.Core

/-- The chunks of a byte string, as `chunks(size)` yields them. -/
def chunksFrom (size : Nat) : (fuel : Nat) → Bytes → List Bytes
  | 0, _ => []
  | fuel + 1, bytes =>
    if bytes.isEmpty then [] else bytes.take size :: chunksFrom size fuel (bytes.drop size)

def chunks (size : Nat) (bytes : Bytes) : List Bytes := chunksFrom size bytes.length bytes

theorem chunksFrom_flatten (positive : 0 < size)
    (enough : bytes.length ≤ fuel) : (chunksFrom size fuel bytes).flatten = bytes := by
  induction fuel generalizing bytes with
  | zero =>
    exact (List.length_eq_zero_iff.mp (Nat.le_zero.mp enough)).symm
  | succ fuel ih =>
    rw [chunksFrom]
    split
    · next empty => rw [List.isEmpty_iff.mp empty, List.flatten_nil]
    · next more =>
      rw [List.flatten_cons, ih (by rw [List.length_drop]; omega), List.take_append_drop]

/-- **The chunks put together.** -/
theorem chunks_flatten (positive : 0 < size) (bytes : Bytes) :
    (chunks size bytes).flatten = bytes := chunksFrom_flatten positive le_rfl

theorem chunksFrom_blocks (positive : 0 < size)
    (sized : ∀ block ∈ blocks, block.length = size) (enough : blocks.flatten.length ≤ fuel) :
    chunksFrom size fuel blocks.flatten = blocks := by
  induction blocks generalizing fuel with
  | nil => cases fuel <;> simp [chunksFrom]
  | cons block blocks ih =>
    have head := sized block (.head _)
    rw [List.flatten_cons, List.length_append] at enough
    obtain ⟨fuel, rfl⟩ : ∃ rest, fuel = rest + 1 := ⟨fuel - 1, by omega⟩
    have more : (block ++ blocks.flatten).isEmpty = false := by
      cases block with
      | nil => simp only [List.length_nil] at head; omega
      | cons => rfl
    rw [List.flatten_cons, chunksFrom, more, if_neg (by simp), ← head, List.take_left,
      List.drop_left, head, ih (fun block member => sized block (.tail _ member)) (by omega)]

theorem chunks_blocks (positive : 0 < size)
    (sized : ∀ block ∈ blocks, block.length = size) : chunks size blocks.flatten = blocks :=
  chunksFrom_blocks positive sized le_rfl

/-- `IO_CHUNK` and `OUT_CHUNK`. -/
def ioChunk : Nat := 128 * 1024

/-- `offtin`: eight little-endian bytes of sign and magnitude. -/
def offtin (bytes : Bytes) : Int :=
  let magnitude := leNat bytes
  if magnitude ≥ 2 ^ 63 then -((magnitude - 2 ^ 63 : Nat) : Int) else (magnitude : Int)

def badPatch {α : Type} (message : String) : Except Error α := .error (.invalidFormat message)

/-- `to_len`. -/
def toLen (value : Int) (which : String) : Except Error Nat :=
  if value < 0 then badPatch ("bspatch negative " ++ which ++ " length") else .ok value.toNat

/-- `apply_seek`. -/
def applySeek (pos : Nat) (seek : Int) : Except Error Nat :=
  if (pos : Int) + seek < 0 then badPatch "bspatch source seek before start" else .ok ((pos : Int) + seek).toNat

/-- `checked_add` under an error. -/
def addOr (first second : Nat) (message : String) : Except Error Nat :=
  match checkedAdd first second with
  | some sum => .ok sum
  | none => badPatch message

/-- What one block writes, and where it leaves the decoder before the seek. -/
structure PatchBlock where
  diff : Bytes
  extra : Bytes
  srcEnd : Nat
  extraEnd : Nat
  seek : Int

/-- The checks of one block, up to its first write. -/
def patchBlock (source stream : Bytes) (newSize produced spos cur : Nat) : Except Error PatchBlock := do
  let ctrlEnd ← addOr cur 24 "bspatch control offset overflow"
  if ctrlEnd > stream.length then badPatch "bspatch stream truncated at control block"
  else
    let diffLen ← toLen (offtin (stream.extract cur (cur + 8))) "diff"
    let extraLen ← toLen (offtin (stream.extract (cur + 8) (cur + 16))) "extra"
    let seek := offtin (stream.extract (cur + 16) (cur + 24))
    let diffEnd ← addOr ctrlEnd diffLen "bspatch diff run overflow"
    let extraEnd ← addOr diffEnd extraLen "bspatch extra run overflow"
    if extraEnd > stream.length then badPatch "bspatch stream truncated at data run"
    else if produced + diffLen + extraLen > newSize then badPatch "bspatch output exceeds declared size"
    else
      let srcEnd ← addOr spos diffLen "bspatch source run overflow"
      if srcEnd > source.length then badPatch "bspatch reads past end of source"
      else
        .ok ⟨List.zipWith (· + ·) (source.extract spos srcEnd) (stream.extract ctrlEnd diffEnd),
          stream.extract diffEnd extraEnd, srcEnd, extraEnd, seek⟩

/-- The seek that ends a block. -/
def seekSource (source : Bytes) (block : PatchBlock) : Except Error Nat := do
  let spos ← applySeek block.srcEnd block.seek
  if spos > source.length then badPatch "bspatch source seek past end" else .ok spos

/-- The loop of `bspatch`: the pieces it writes and the result it ends with. Each block takes at
least its control bytes from the stream, so with no fuel left the stream has none. -/
def bspatchLoop (source stream : Bytes) (newSize : Nat) :
    (fuel : Nat) → (produced spos cur : Nat) → List Bytes × Except Error Unit
  | 0, produced, _, _ =>
    ([], if produced ≥ newSize then .ok () else badPatch "bspatch stream truncated at control block")
  | fuel + 1, produced, spos, cur =>
    if produced ≥ newSize then ([], .ok ())
    else
      match patchBlock source stream newSize produced spos cur with
      | .error fault => ([], .error fault)
      | .ok block =>
        let pieces := chunks ioChunk block.diff ++ chunks ioChunk block.extra
        match seekSource source block with
        | .error fault => (pieces, .error fault)
        | .ok spos =>
          let rest := bspatchLoop source stream newSize fuel
            (produced + block.diff.length + block.extra.length) spos block.extraEnd
          (pieces ++ rest.1, rest.2)

/-- `bspatch`. -/
def bspatch (source stream : Bytes) (newSize : Nat) : List Bytes × Except Error Unit :=
  bspatchLoop source stream newSize (stream.length + 1) 0 0 0

end Ostrya.Delta
