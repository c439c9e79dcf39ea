/-
**Programs that talk to one server over a lossy wire.**

A client's program ends, or sends a request and goes on with the answer or with the loss of it. A
request that was sent takes effect at most once, at any later moment, and whether or not its client
still waits for the answer: the client may have taken it for lost, or be gone. Several clients share
the server, and the wire keeps every request until it takes effect.

The proof rule is an outline: an assertion on the server and the wire at each point of the program
(`Outline`), stable under what the other clients may send and under every request that takes effect.

* `Outline.bind` — outlines compose as the programs do.
* `Call.Knows.step`, `Call.Knows.send`, `Call.Knows.effect` — what a client knows by its outline
  stays true along its own steps, the sends of the others and every effect.
-/

import Mathlib.Logic.Function.Basic

namespace Network

/-- A client's program. `Ans req` is what the server answers to `req`. -/
inductive Prog (Req : Type) (Ans : Req → Type) (Loss α : Type) where
  | done (result : α)
  | call (req : Req) (next : Except Loss (Ans req) → Prog Req Ans Loss α)

variable {Req : Type} {Ans : Req → Type} {Loss α β : Type}

namespace Prog

/-- The second program runs on the result of the first. -/
def bind : Prog Req Ans Loss α → (α → Prog Req Ans Loss β) → Prog Req Ans Loss β
  | .done result, f => f result
  | .call req next, f => .call req fun reply => (next reply).bind f

end Prog

/-- One place of the wire. -/
inductive Mail (ι Req : Type) (Ans : Req → Type) where
  | unsent
  | flying (sender : ι) (req : Req)
  | answered (req : Req) (ans : Ans req)

/-- The server's state and the wire. -/
structure World (ι σ Req : Type) (Ans : Req → Type) where
  server : σ
  wire : Nat → Mail ι Req Ans

variable {ι σ : Type}

/-- A request is sent from a place that no message used before. -/
def World.send (world : World ι σ Req Ans) (place : Nat) (sender : ι) (req : Req) : World ι σ Req Ans :=
  { world with wire := Function.update world.wire place (.flying sender req) }

/-- A request takes effect: the server moves on, and the answer is under way. -/
def World.effect (serve : ι → (req : Req) → σ → Ans req × σ) (world : World ι σ Req Ans)
    (place : Nat) (sender : ι) (req : Req) : World ι σ Req Ans :=
  { server := (serve sender req world.server).2
    wire := Function.update world.wire place (.answered req (serve sender req world.server).1) }

theorem World.flying_of_send {world : World ι σ Req Ans} {sender v : ι}
    (flies : (world.send place sender req).wire other = .flying v req') :
    (other = place ∧ v = sender ∧ req' = req) ∨ (other ≠ place ∧ world.wire other = .flying v req') := by
  simp only [World.send, Function.update_apply] at flies
  split at flies
  · next same =>
    cases flies
    exact .inl ⟨same, rfl, rfl⟩
  · next apart => exact .inr ⟨apart, flies⟩

theorem World.flying_of_effect {world : World ι σ Req Ans} {sender v : ι}
    (flies : (world.effect serve place sender req).wire other = .flying v req') :
    other ≠ place ∧ world.wire other = .flying v req' := by
  simp only [World.effect, Function.update_apply] at flies
  split at flies
  · cases flies
  · next apart => exact ⟨apart, flies⟩

/-- Nothing happens, or the client `me` sends a request that it may send. -/
def World.Sends (may : Req → Prop) (me : ι) (world world' : World ι σ Req Ans) : Prop :=
  world' = world ∨ ∃ place req, world.wire place = .unsent ∧ may req ∧ world' = world.send place me req

/-- A client in the middle of a program. -/
inductive Call (Req : Type) (Ans : Req → Type) (Loss α : Type) where
  | ready (prog : Prog Req Ans Loss α)
  | waiting (place : Nat) (req : Req) (next : Except Loss (Ans req) → Prog Req Ans Loss α)

/-- A step of the client `me`. A loss leaves the wire as it is. -/
inductive Call.Step (me : ι) : Call Req Ans Loss α → World ι σ Req Ans →
    Call Req Ans Loss α → World ι σ Req Ans → Prop where
  | send (free : world.wire place = .unsent) :
      Call.Step me (.ready (.call req next)) world (.waiting place req next) (world.send place me req)
  | receive (arrives : world.wire place = .answered req ans) :
      Call.Step me (.waiting place req next) world (.ready (next (.ok ans))) world
  | lose (loss : Loss) :
      Call.Step me (.waiting place req next) world (.ready (next (.error loss))) world

/-! ### Outlines -/

/-- What a proof about one call of a client assumes: how the server acts, which requests are ever on
the wire, which are sent beside this call, by the other clients or by other calls of this one, and
which the call sends itself. -/
structure Setting (ι σ Req : Type) (Ans : Req → Type) where
  serve : ι → (req : Req) → σ → Ans req × σ
  allowed : ι → Req → Prop
  others : ι → Req → Prop
  mine : Req → Prop

variable (setting : Setting ι σ Req Ans)

/-- An assertion that stays true when another sends a request and when a request takes effect. -/
structure Stable (P : World ι σ Req Ans → Prop) : Prop where
  send : ∀ world place sender req, world.wire place = .unsent → setting.others sender req →
    P world → P (world.send place sender req)
  effect : ∀ world place sender req, world.wire place = .flying sender req →
    setting.allowed sender req → P world → P (world.effect setting.serve place sender req)

variable {setting}

theorem Stable.never : Stable setting fun _ => False :=
  ⟨fun _ _ _ _ _ _ absurd => absurd, fun _ _ _ _ _ _ absurd => absurd⟩

/-- What does not depend on the world can stand beside an assertion. -/
theorem Stable.and_fact
    (stable : Stable setting P) (fact : Prop) : Stable setting fun world => P world ∧ fact where
  send := fun _ _ _ _ free other holds => ⟨stable.send _ _ _ _ free other holds.1, holds.2⟩
  effect := fun _ _ _ _ flies may holds => ⟨stable.effect _ _ _ _ flies may holds.1, holds.2⟩

variable (setting) in
/-- A proof outline of the client `me`: an assertion at each point of the program, that ends in
`post`. After a send the assertion is `after`, and after the effect of that request also
`learnt`. -/
inductive Outline (me : ι) (post : α → World ι σ Req Ans → Prop) :
    (World ι σ Req Ans → Prop) → Prog Req Ans Loss α → Prop where
  | done (stable : Stable setting P)
      (ends : ∀ world, P world → post result world) : Outline me post P (.done result)
  | call (after : World ι σ Req Ans → Prop) (learnt : Ans req → World ι σ Req Ans → Prop)
      (stable : Stable setting P) (stableAfter : Stable setting after)
      (stableLearnt : ∀ ans, Stable setting (learnt ans)) (may : ∀ world, P world → setting.mine req)
      (sends : ∀ world place, world.wire place = .unsent → P world → after (world.send place me req))
      (acts : ∀ world place, world.wire place = .flying me req → after world →
        learnt (setting.serve me req world.server).1 (world.effect setting.serve place me req))
      (answered : ∀ ans, Outline me post (learnt ans) (next (.ok ans)))
      (lost : ∀ loss, Outline me post after (next (.error loss))) : Outline me post P (.call req next)

namespace Outline

variable {me : ι} {post : α → World ι σ Req Ans → Prop} {P P' : World ι σ Req Ans → Prop}
  {prog : Prog Req Ans Loss α}

theorem stable (outline : Outline setting me post P prog) : Stable setting P := by
  cases outline with
  | done stable => exact stable
  | call _ _ stable => exact stable

theorem weaken (outline : Outline setting me post P prog) (stable : Stable setting P')
    (stronger : ∀ world, P' world → P world) : Outline setting me post P' prog := by
  cases outline with
  | done _ ends => exact .done stable fun world holds => ends world (stronger world holds)
  | call after learnt _ stableAfter stableLearnt may sends acts answered lost =>
    exact .call after learnt stable stableAfter stableLearnt
      (fun world holds => may world (stronger world holds))
      (fun world place free holds => sends world place free (stronger world holds)) acts answered lost

theorem bind {post : β → World ι σ Req Ans → Prop} (first : Outline setting me mid P prog)
    (rest : ∀ result, Outline setting me post (mid result) (f result)) :
    Outline setting me post P (prog.bind f) := by
  induction first with
  | done stable ends => exact (rest _).weaken stable ends
  | call after learnt stable stableAfter stableLearnt may sends acts _ _ answered lost =>
    exact .call after learnt stable stableAfter stableLearnt may sends acts answered lost

theorem unreached (prog : Prog Req Ans Loss α) : Outline setting me post (fun _ => False) prog := by
  induction prog with
  | done result => exact .done .never fun _ absurd => absurd.elim
  | call req next ih =>
    exact .call (fun _ => False) (fun _ _ => False) .never .never (fun _ => .never) (fun _ absurd => absurd.elim)
      (fun _ _ _ absurd => absurd) (fun _ _ _ absurd => absurd) (fun ans => ih (.ok ans)) fun loss => ih (.error loss)

/-- A fact in the assertion can be used for the outline. -/
theorem of_fact {fact : Prop} (stable : Stable setting P) (given : fact → Outline setting me post P prog) :
    Outline setting me post (fun world => P world ∧ fact) prog := by
  by_cases holds : fact
  · exact (given holds).weaken (stable.and_fact fact) fun _ both => both.1
  · exact (unreached prog).weaken (stable.and_fact fact) fun _ both => holds both.2

end Outline

/-! ### What a client knows -/

variable (setting) in
/-- What the client `me` knows at a point of its program, from an outline that ends in `post`. -/
def Call.Knows (me : ι) (post : α → World ι σ Req Ans → Prop) (world : World ι σ Req Ans) :
    Call Req Ans Loss α → Prop
  | .ready prog => ∃ P, P world ∧ Outline setting me post P prog
  | .waiting place req next => ∃ (after : World ι σ Req Ans → Prop) (learnt : Ans req → World ι σ Req Ans → Prop),
      ((world.wire place = .flying me req ∧ after world) ∨
        ∃ ans, world.wire place = .answered req ans ∧ after world ∧ learnt ans world) ∧
      Stable setting after ∧ (∀ ans, Stable setting (learnt ans)) ∧
      (∀ world place, world.wire place = .flying me req → after world →
        learnt (setting.serve me req world.server).1 (world.effect setting.serve place me req)) ∧
      (∀ ans, Outline setting me post (learnt ans) (next (.ok ans))) ∧
      ∀ loss, Outline setting me post after (next (.error loss))

namespace Call.Knows

variable {me : ι} {post : α → World ι σ Req Ans → Prop} {world : World ι σ Req Ans}
  {call : Call Req Ans Loss α}

theorem ended (knows : (Call.ready (Prog.done result : Prog Req Ans Loss α)).Knows setting me
    post world) : post result world := by
  obtain ⟨P, holds, outline⟩ := knows
  cases outline with
  | done _ ends => exact ends world holds

section

variable (knows : call.Knows setting me post world)

include knows

theorem step (run : Call.Step me call world call' world') :
    call'.Knows setting me post world' := by
  cases run with
  | send free =>
    obtain ⟨P, holds, outline⟩ := knows
    cases outline with
    | call after learnt _ stableAfter stableLearnt _ sends acts answered lost =>
      refine ⟨after, learnt, .inl ⟨Function.update_self .., sends _ _ free holds⟩, stableAfter,
        stableLearnt, acts, answered, lost⟩
  | receive arrives =>
    obtain ⟨after, learnt, (⟨flies, -⟩ | ⟨ans', came, -, holds⟩), -, -, -, answered, -⟩ := knows
    · rw [flies] at arrives
      cases arrives
    · rw [came] at arrives
      cases arrives
      exact ⟨_, holds, answered _⟩
  | lose loss =>
    obtain ⟨after, learnt, (⟨-, holds⟩ | ⟨_, -, holds, -⟩), -, -, -, -, lost⟩ := knows
    · exact ⟨after, holds, lost loss⟩
    · exact ⟨after, holds, lost loss⟩

/-- A step changes the world only by a send, of a request that the call may send. -/
theorem step_sends (run : Call.Step me call world call' world') : world.Sends setting.mine me world' := by
  cases run with
  | send free =>
    obtain ⟨P, holds, outline⟩ := knows
    cases outline with
    | call _ _ _ _ _ may => exact .inr ⟨_, _, free, may world holds, rfl⟩
  | receive => exact .inl rfl
  | lose => exact .inl rfl

theorem send {place : Nat} {sender : ι} {req : Req}
    (free : world.wire place = .unsent) (other : setting.others sender req) :
    call.Knows setting me post (world.send place sender req) := by
  cases call with
  | ready prog =>
    obtain ⟨P, holds, outline⟩ := knows
    exact ⟨P, outline.stable.send _ _ _ _ free other holds, outline⟩
  | waiting mine req' next =>
    obtain ⟨after, learnt, now, stableAfter, stableLearnt, rest⟩ := knows
    refine ⟨after, learnt, ?_, stableAfter, stableLearnt, rest⟩
    obtain ⟨flies, holds⟩ | ⟨ans, came, holds, learns⟩ := now
    · have apart : mine ≠ place := by rintro rfl; rw [flies] at free; cases free
      exact .inl ⟨(Function.update_of_ne apart ..).trans flies,
        stableAfter.send _ _ _ _ free other holds⟩
    · have apart : mine ≠ place := by rintro rfl; rw [came] at free; cases free
      exact .inr ⟨ans, (Function.update_of_ne apart ..).trans came,
        stableAfter.send _ _ _ _ free other holds, (stableLearnt ans).send _ _ _ _ free other learns⟩

/-- Any request takes effect, the client's own one included. -/
theorem effect {place : Nat} {sender : ι} {req : Req}
    (flies : world.wire place = .flying sender req) (may : setting.allowed sender req) :
    call.Knows setting me post (world.effect setting.serve place sender req) := by
  cases call with
  | ready prog =>
    obtain ⟨P, holds, outline⟩ := knows
    exact ⟨P, outline.stable.effect _ _ _ _ flies may holds, outline⟩
  | waiting mine req' next =>
    obtain ⟨after, learnt, now, stableAfter, stableLearnt, acts, rest⟩ := knows
    refine ⟨after, learnt, ?_, stableAfter, stableLearnt, acts, rest⟩
    obtain ⟨own, holds⟩ | ⟨ans, came, holds, learns⟩ := now
    · have still := stableAfter.effect _ _ _ _ flies may holds
      by_cases same : mine = place
      · -- the effect is that of the request the client waits for
        subst same
        rw [own] at flies
        cases flies
        exact .inr ⟨_, Function.update_self .., still, acts _ _ own holds⟩
      · exact .inl ⟨(Function.update_of_ne same ..).trans own, still⟩
    · have apart : mine ≠ place := by rintro rfl; rw [came] at flies; cases flies
      exact .inr ⟨ans, (Function.update_of_ne apart ..).trans came,
        stableAfter.effect _ _ _ _ flies may holds, (stableLearnt ans).effect _ _ _ _ flies may learns⟩

end

end Call.Knows

end Network
