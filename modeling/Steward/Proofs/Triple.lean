import Mathlib
import Steward.Session

/-!
# Triples

Work on files, on a host and in a session has a state that survives errors. What such work does is
said by triples: from a state with one property it ends with an answer in a state with a second, or
with an error in a state with a third.
-/

namespace Steward

open Std.Do

theorem triple_iff {ε σ α : Type} {P : σ → Prop} {Q : α → σ → Prop} {E : ε → σ → Prop}
    {x : EStateM ε σ α} :
    (⦃fun s => ⌜P s⌝⦄ x ⦃post⟨fun a s => ⌜Q a s⌝, fun e s => ⌜E e s⌝⟩⦄) ↔
      ∀ s, P s →
        match x s with
        | .ok a s' => Q a s'
        | .error e s' => E e s' := by
  refine forall_congr' fun s ↦ imp_congr Iff.rfl ?_
  simp only [wp, EStateM.run, PredTrans.apply]
  cases x s <;> rfl

section Elim

variable {ε σ α : Type} {P : σ → Prop} {Q : α → σ → Prop} {E : ε → σ → Prop} {x : EStateM ε σ α}
  {s s' : σ}

/-- A triple says what comes of a state. -/
theorem cases_of_triple (h : ⦃fun s => ⌜P s⌝⦄ x ⦃post⟨fun a s => ⌜Q a s⌝, fun e s => ⌜E e s⌝⟩⦄)
    (hs : P s) : (∃ a s', x s = .ok a s' ∧ Q a s') ∨ ∃ e s', x s = .error e s' ∧ E e s' := by
  have hrun := triple_iff.1 h s hs
  cases hx : x s with
  | ok a s' =>
    rw [hx] at hrun
    exact .inl ⟨a, s', rfl, hrun⟩
  | error e s' =>
    rw [hx] at hrun
    exact .inr ⟨e, s', rfl, hrun⟩

theorem ok_of_triple (h : ⦃fun s => ⌜P s⌝⦄ x ⦃post⟨fun a s => ⌜Q a s⌝, fun e s => ⌜E e s⌝⟩⦄)
    (hs : P s) {a : α} (hx : x s = .ok a s') : Q a s' := by
  have hrun := triple_iff.1 h s hs
  rwa [hx] at hrun

theorem error_of_triple (h : ⦃fun s => ⌜P s⌝⦄ x ⦃post⟨fun a s => ⌜Q a s⌝, fun e s => ⌜E e s⌝⟩⦄)
    (hs : P s) {e : ε} (hx : x s = .error e s') : E e s' := by
  have hrun := triple_iff.1 h s hs
  rwa [hx] at hrun

end Elim

/-- The work preserves what holds of its state, however it ends. -/
abbrev Preserves {ε σ α : Type} (P : σ → Prop) (x : EStateM ε σ α) : Prop :=
  ⦃fun s => ⌜P s⌝⦄ x ⦃post⟨fun _ s => ⌜P s⌝, fun _ s => ⌜P s⌝⟩⦄

/-- The work preserves what holds of its state, unless it ends with an error and what goes with it. -/
abbrev PreservesElse {ε σ α : Type} (P : σ → Prop) (E : ε → σ → Prop) (x : EStateM ε σ α) : Prop :=
  ⦃fun s => ⌜P s⌝⦄ x ⦃post⟨fun _ s => ⌜P s⌝, fun e s => ⌜E e s⌝⟩⦄

/-- Nothing is said of work whose outcome does not matter. -/
theorem triple_true {ε σ α : Type} (x : EStateM ε σ α) :
    ⦃fun _ => ⌜True⌝⦄ x ⦃post⟨fun _ _ => ⌜True⌝, fun _ _ => ⌜True⌝⟩⦄ := by
  refine triple_iff.2 fun s _ ↦ ?_
  cases x s <;> trivial

/-! ## Work on a part of the state -/

@[spec]
theorem Work.job_spec {α : Type} (t : Job α) (Q : PostCond α (.except Fault (.arg Desk .pure))) :
    ⦃fun d => wp⟦t⟧ (fun a host => Q.1 a { d with host }, fun e host => Q.2.1 e { d with host }, ())
      d.host⦄ Work.job t ⦃Q⦄ := by
  intro d ht
  simp only [wp, EStateM.run, PredTrans.apply, Work.job] at ht ⊢
  cases hrun : t d.host with
  | ok a host => simpa [hrun] using ht
  | error e host => simpa [hrun] using ht

@[spec]
theorem Work.attempt_spec {α : Type} (w : Work α)
    (Q : PostCond (Except Fault α) (.except Fault (.arg Desk .pure))) :
    ⦃fun d => wp⟦w⟧ (fun a => Q.1 (.ok a), fun e => Q.1 (.error e), ()) d⦄ Work.attempt w ⦃Q⦄ := by
  intro d hw
  simp only [wp, EStateM.run, PredTrans.apply, Work.attempt] at hw ⊢
  cases hrun : w d with
  | ok a d => simpa [hrun] using hw
  | error e d => simpa [hrun] using hw

@[spec]
theorem Job.attempt_spec {α : Type} (t : Job α)
    (Q : PostCond (Except Fault α) (.except Fault (.arg Host .pure))) :
    ⦃fun h => wp⟦t⟧ (fun a => Q.1 (.ok a), fun e => Q.1 (.error e), ()) h⦄ Job.attempt t ⦃Q⦄ := by
  intro h ht
  simp only [wp, EStateM.run, PredTrans.apply, Job.attempt] at ht ⊢
  cases hrun : t h with
  | ok a h => simpa [hrun] using ht
  | error e h => simpa [hrun] using ht

/-- Work on the files keeps what does not depend on them. -/
theorem Job.disk_frame {α : Type} {P : Host → Prop} (hP : ∀ h tree, P h → P { h with tree })
    (wrap : IoError → Error) (x : Disk α) : Preserves P (Job.disk wrap x) := by
  refine triple_iff.2 fun h hh ↦ ?_
  rw [Job.disk]
  cases x h.tree with
  | ok a tree => exact hP h tree hh
  | error e tree => exact hP h tree hh

end Steward
