/-
**Programs of fixed-width numbers and slices.**

Such a program halts where a number leaves its type or an index its slice. `Run ε` is the monad of
programs that can halt, and that
can also fail with an error of their own; `must` is an operation that has to go through, `may` one
that may fail. `Refines checked
plain` says that the checked program never halts and does what the plain one does. Its rules follow
the shape of the program, and
every `must` leaves the proof that its operation goes through.
-/

import Mathlib.Algebra.Group.Int.Defs
import Mathlib.Algebra.GroupWithZero.Nat
import Ostrya.ByteFormat.Results

namespace Checked

open ByteFormat

variable {ε α β : Type} {items : List α}

/-- Why a program halts: `spent` where the bound on its rounds is used up. -/
inductive Halt where
  | overflow
  | outOfRange
  | spent
  deriving DecidableEq, Repr

/-- A slice. It takes less than half of the addresses. -/
structure Slice (bits : Nat) (α : Type) where
  items : List α
  fits : items.length < 2 ^ (bits - 1)

/-- A number of an unsigned type. -/
def unsigned (bits n : Nat) : Except Halt Nat := if n < 2 ^ bits then .ok n else .error .overflow

/-- A number of a signed type. -/
def signed (bits : Nat) (n : Int) : Except Halt Int :=
  if -2 ^ (bits - 1) ≤ n ∧ n < 2 ^ (bits - 1) then .ok n else .error .overflow

/-- `items[i]`. -/
def index (items : List α) (i : Nat) : Except Halt α :=
  match items[i]? with
  | some item => .ok item
  | none => .error .outOfRange

/-- `&items[first..last]`. -/
def slice (items : List α) (first last : Nat) : Except Halt (List α) :=
  if first ≤ last ∧ last ≤ items.length then .ok (items.extract first last) else .error .outOfRange

theorem unsigned_of_lt (small : n < 2 ^ bits) : unsigned bits n = .ok n := if_pos small

theorem signed_of_mem (low : -2 ^ (bits - 1) ≤ n) (high : n < 2 ^ (bits - 1)) :
    signed bits n = .ok n := if_pos ⟨low, high⟩

theorem index_of_lt (inside : i < items.length) : index items i = .ok items[i] := by
  rw [index, List.getElem?_eq_getElem inside]

theorem slice_of_le (ordered : first ≤ last) (inside : last ≤ items.length) :
    slice items first last = .ok (items.extract first last) := if_pos ⟨ordered, inside⟩

theorem mapM_of_forall {f : α → Except ε β} (each : ∀ item ∈ items, f item = .ok (g item)) :
    items.mapM f = .ok (items.map g) := by
  rw [mapM_eq_ok, List.forall₂_map_right_iff, List.forall₂_same]
  exact each

/-- A program that can halt, and fail with an error of its own. -/
abbrev Run (ε : Type) := ExceptT ε (Except Halt)

def must (operation : Except Halt α) : Run ε α := ExceptT.lift operation

def may (result : Except ε α) : Run ε α := ExceptT.mk (.ok result)

/-- The checked program never halts, and does what the plain one does. -/
def Refines (checked : Run ε α) (plain : Except ε α) : Prop := checked.run = .ok plain

namespace Refines

variable {checked : Run ε α} {plain : Except ε α}

theorem result (plain : Except ε α) : Refines (may plain) plain := rfl

theorem bind (first : Refines checked plain) (rest : ∀ a, plain = .ok a → Refines (next a) (plainNext a)) :
    Refines (checked >>= next) (plain >>= plainNext) := by
  unfold Refines at *
  rw [ExceptT.run_bind, first, ok_bind]
  cases plain with
  | error fault => rfl
  | ok a => exact rest a rfl

theorem must (goes : operation = .ok b)
    (rest : Refines (next b) plain) : Refines (Checked.must operation >>= next) plain := by
  rw [goes]
  exact rest

theorem ite [Decidable condition]
    (holds : condition → Refines checked plain) (fails : ¬ condition → Refines other plainOther) :
    Refines (if condition then checked else other) (if condition then plain else plainOther) := by
  split
  · next yes => exact holds yes
  · next no => exact fails no

end Refines

end Checked
