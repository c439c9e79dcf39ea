/-
**Successful computations in `Except`.**

What a `do` block or a list traversal that returned `.ok` went through, stated once so that proofs
peel computations apart instead of splitting matches.
-/

import Mathlib.Data.List.Forall2

namespace ByteFormat

variable {ε α β γ : Type}

variable {b : β}

theorem bind_eq_ok {x : Except ε α} :
    (x >>= f) = .ok b ↔ ∃ a, x = .ok a ∧ f a = .ok b := by
  cases x with
  | error fault | ok a => simp [bind, Except.bind]

theorem check_bind_eq_ok {check : Except ε Unit} :
    (check >>= x) = .ok b ↔ check = .ok () ∧ x () = .ok b := by
  cases check with
  | error fault | ok a => simp [bind, Except.bind]

theorem map_eq_ok {x : Except ε α} :
    x.map f = .ok b ↔ ∃ a, x = .ok a ∧ f a = b := by
  cases x with
  | error fault => simp [Except.map]
  | ok a => simp [Except.map]

theorem eq_ok_of_isOk {result : Except ε α} (succeeds : result.isOk = true) :
    ∃ value, result = .ok value := by
  cases result with
  | error => cases succeeds
  | ok value => exact ⟨value, rfl⟩

@[simp] theorem ok_bind (a : α) (f : α → Except ε β) : (Except.ok a >>= f) = f a := rfl

@[simp] theorem error_bind (fault : ε) (f : α → Except ε β) :
    (Except.error fault >>= f) = .error fault := rfl

@[simp] theorem map_ok (f : α → β) (a : α) : (Except.ok a : Except ε α).map f = .ok (f a) := rfl

@[simp] theorem map_error (f : α → β) (fault : ε) :
    (Except.error fault : Except ε α).map f = .error fault := rfl

@[simp] theorem pure_eq_ok (a : α) : (pure a : Except ε α) = .ok a := rfl

@[simp] theorem throw_eq_error (fault : ε) : (throw fault : Except ε α) = .error fault := rfl

/-- A check of each item in turn, up to the first that fails. -/
def checkEach (check : α → Except ε Unit) : List α → Except ε Unit
  | [] => .ok ()
  | item :: items => do
    check item
    checkEach check items

theorem checkEach_eq_ok {check : α → Except ε Unit} :
    checkEach check items = .ok () ↔ ∀ item ∈ items, check item = .ok () := by
  induction items with
  | nil => simp [checkEach]
  | cons item items ih => simp [checkEach, check_bind_eq_ok, ih]

/-- A result together with what holds of every value it can have. -/
def withProof {P : α → Prop} : (result : Except ε α) → (∀ a, result = .ok a → P a) → Except ε {a // P a}
  | .ok a, holds => .ok ⟨a, holds a rfl⟩
  | .error fault, _ => .error fault

theorem withProof_eq_ok
    : withProof result holds = .ok value ↔ result = .ok value.val := by
  cases result with
  | error fault => simp [withProof]
  | ok a => simp [withProof, Subtype.ext_iff]

theorem mapM_eq_ok {f : α → Except ε β} {items : List α} :
    items.mapM f = .ok results ↔ List.Forall₂ (fun item result => f item = .ok result) items results := by
  induction items generalizing results with
  | nil =>
    simp only [List.mapM_nil, pure_eq_ok, Except.ok.injEq, List.forall₂_nil_left_iff]
    exact eq_comm
  | cons item items ih =>
    simp only [List.mapM_cons, bind_eq_ok, pure_eq_ok, Except.ok.injEq, ih]
    constructor
    · rintro ⟨result, first, rest, others, rfl⟩
      exact .cons first others
    · intro all
      cases all with
      | cons first others => exact ⟨_, first, _, others, rfl⟩

theorem mapM_id_map (f : α → Except ε β) (items : List α) : (items.map f).mapM id = items.mapM f := by
  induction items with
  | nil => rfl
  | cons item items ih => rw [List.map_cons, List.mapM_cons, List.mapM_cons, ih, id]

variable {as : List α} {bs : List β} {R : α → β → Prop}

theorem forall₂_swap_imp (each : List.Forall₂ R as bs) (step : ∀ a ∈ as, ∀ b ∈ bs, R a b → S b a) :
    List.Forall₂ S bs as := by
  induction each with
  | nil => exact .nil
  | cons first _ ih =>
    refine .cons (step _ (.head _) _ (.head _) first) (ih ?_)
    exact fun a memberA b memberB =>
      step a (.tail _ memberA) b (.tail _ memberB)

theorem map_eq_of_forall₂ (each : List.Forall₂ R as bs) (same : ∀ a b, R a b → f a = g b) :
    as.map f = bs.map g := by
  induction each with
  | nil => rfl
  | cons first _ ih => rw [List.map_cons, List.map_cons, ih, same _ _ first]

variable {cs : List γ}

/-- A list whose items all have one form. -/
theorem exists_map_of_forall₂ {f : γ → α} {P : γ → Prop} (each : List.Forall₂ R as bs)
    (form : ∀ a b, R a b → ∃ c, a = f c ∧ P c) :
    ∃ cs : List γ, as = cs.map f ∧ ∀ c ∈ cs, P c := by
  induction each with
  | nil => exact ⟨[], rfl, nofun⟩
  | cons first _ ih =>
    obtain ⟨c, rfl, holds⟩ := form _ _ first
    obtain ⟨cs, rfl, all⟩ := ih
    exact ⟨c :: cs, rfl, List.forall_mem_cons.mpr ⟨holds, all⟩⟩

theorem forall₂_comp (first : List.Forall₂ R as bs) (second : List.Forall₂ S bs cs)
    (step : ∀ a b, ∀ c ∈ cs, R a b → S b c → T a c) : List.Forall₂ T as cs := by
  induction first generalizing cs with
  | nil =>
    cases second
    exact .nil
  | cons head _ ih =>
    cases second with
    | cons related rest =>
      refine .cons (step _ _ _ (.head _) head related) (ih rest ?_)
      exact fun a b c member => step a b c (.tail _ member)

variable {a : α}

theorem exists_zip_of_forall₂ (each : List.Forall₂ R as bs) (member : a ∈ as) : ∃ b, (a, b) ∈ as.zip bs ∧ R a b := by
  induction each with
  | nil => cases member
  | @cons _ b _ _ head _ ih =>
    rcases List.mem_cons.mp member with rfl | later
    · exact ⟨b, (.head _), head⟩
    · obtain ⟨other, found, related⟩ := ih later
      exact ⟨other, .tail _ found, related⟩

theorem forall₂_set (each : List.Forall₂ R as bs)
    (there : as[i]? = some a) (holds : R a b) : List.Forall₂ R as (bs.set i b) := by
  induction each generalizing i with
  | nil => exact .nil
  | cons head rest ih =>
    cases i with
    | zero =>
      obtain rfl := Option.some.inj there
      exact .cons holds rest
    | succ i => exact .cons head (ih there)

theorem forall₂_exists_left (each : List.Forall₂ R as bs) (member : b ∈ bs) : ∃ a ∈ as, R a b := by
  induction each with
  | nil => cases member
  | cons first _ ih =>
    rcases List.mem_cons.mp member with rfl | member
    · exact ⟨_, (.head _), first⟩
    · obtain ⟨a, inside, related⟩ := ih member
      exact ⟨a, .tail _ inside, related⟩

/-! ### Three lists in step -/

variable {R : α → β → γ → Prop}

/-- A relation that holds of the entries of three lists, position by position. -/
inductive Forall₃ (R : α → β → γ → Prop) : List α → List β → List γ → Prop
  | nil : Forall₃ R [] [] []
  | cons {a : α} {b : β} {c : γ} {as : List α} {bs : List β} {cs : List γ} :
      R a b c → Forall₃ R as bs cs → Forall₃ R (a :: as) (b :: bs) (c :: cs)

theorem Forall₃.cons_inv
    (each : Forall₃ R (a :: as) (b :: bs) cs) : ∃ c others, cs = c :: others ∧ R a b c ∧ Forall₃ R as bs others := by
  cases each with
  | cons head rest => exact ⟨_, _, rfl, head, rest⟩

theorem Forall₃.nil_inv (each : Forall₃ R [] [] cs) : cs = [] := by
  cases each
  rfl

theorem Forall₃.length_eq (each : Forall₃ R as bs cs) : as.length = bs.length ∧ as.length = cs.length := by
  induction each with
  | nil => exact ⟨rfl, rfl⟩
  | cons _ _ ih => exact ⟨congrArg Nat.succ ih.1, congrArg Nat.succ ih.2⟩

theorem Forall₃.imp (step : ∀ a b c, R a b c → S a b c) (each : Forall₃ R as bs cs) : Forall₃ S as bs cs := by
  induction each with
  | nil => exact .nil
  | cons first _ ih => exact .cons (step _ _ _ first) ih

theorem forall₃_replicate (R : α → β → γ → Prop) :
    Forall₃ R (List.replicate bs.length a) bs cs ↔ List.Forall₂ (R a) bs cs := by
  constructor
  · intro each
    induction bs generalizing cs with
    | nil => exact each.nil_inv ▸ .nil
    | cons b bs ih =>
      obtain ⟨c, others, rfl, first, rest⟩ := each.cons_inv
      exact .cons first (ih rest)
  · intro each
    induction each with
    | nil => exact .nil
    | cons first _ ih => exact .cons first ih

theorem Forall₃.exists_of_getElem? (each : Forall₃ R as bs cs) {index : Nat}
    (first : as[index]? = some a) (second : bs[index]? = some b) : ∃ c ∈ cs, R a b c := by
  induction each generalizing index with
  | nil => cases first
  | cons related _ ih =>
    cases index with
    | zero =>
      cases first
      cases second
      exact ⟨_, (.head _), related⟩
    | succ index =>
      obtain ⟨c, member, found⟩ := ih first second
      exact ⟨c, .tail _ member, found⟩

theorem Forall₃.swap_imp (each : Forall₃ R as bs cs)
    (step : ∀ a, ∀ b ∈ bs, ∀ c ∈ cs, R a b c → S a c b) : Forall₃ S as cs bs := by
  induction each with
  | nil => exact .nil
  | cons first _ ih =>
    refine .cons (step _ _ (.head _) _ (.head _) first) (ih ?_)
    exact fun a b memberB c memberC =>
      step a b (.tail _ memberB) c (.tail _ memberC)

theorem zip_mapM_eq_ok {f : α → β → Except ε γ} (same : as.length = bs.length) :
    ((as.zip bs).mapM fun pair => f pair.1 pair.2) = .ok cs ↔
      Forall₃ (fun a b c => f a b = .ok c) as bs cs := by
  induction as generalizing bs cs with
  | nil =>
    obtain rfl := List.length_eq_zero_iff.mp same.symm
    simp only [List.zip_nil_left, List.mapM_nil, pure_eq_ok, Except.ok.injEq]
    constructor
    · rintro rfl
      exact .nil
    · intro each
      cases each
      rfl
  | cons a as ih =>
    cases bs with
    | nil => cases same
    | cons b bs =>
      simp only [List.zip_cons_cons, List.mapM_cons, bind_eq_ok, pure_eq_ok, Except.ok.injEq,
        ih (Nat.succ.inj same)]
      constructor
      · rintro ⟨c, first, rest, others, rfl⟩
        exact .cons first others
      · intro each
        cases each with
        | cons first others => exact ⟨_, first, _, others, rfl⟩

end ByteFormat
