import Mathlib

set_option autoImplicit false

namespace SystemsSuite.Lib

-- Programs over a state `σ` that may stop with a panic `ε`.
abbrev Prog (ε σ : Type) := StateT σ (Except ε)

namespace Prog

variable {ε σ α β : Type}

def read : Prog ε σ σ := fun s => .ok (s, s)
def update (f : σ → σ) : Prog ε σ Unit := fun s => .ok ((), f s)
def panic (e : ε) : Prog ε σ α := fun _ => .error e

-- `wp m Q E s`: from `s` the program ends in a result satisfying `Q` or panics as `E` allows.
def wp (m : Prog ε σ α) (Q : α → σ → Prop) (E : ε → Prop) (s : σ) : Prop :=
  match m s with
  | .ok r => Q r.1 r.2
  | .error e => E e

variable {m : Prog ε σ α} {f : α → Prog ε σ β} {Q : α → σ → Prop} {R : β → σ → Prop}
  {E : ε → Prop} {s : σ}

@[simp] theorem wp_pure (a : α) : wp (pure a) Q E s ↔ Q a s := Iff.rfl

@[simp] theorem wp_read {Q : σ → σ → Prop} : wp read Q E s ↔ Q s s := Iff.rfl

@[simp] theorem wp_update {Q : Unit → σ → Prop} (g : σ → σ) : wp (update g) Q E s ↔ Q () (g s) := Iff.rfl

@[simp] theorem wp_panic (e : ε) : wp (panic e) Q E s ↔ E e := Iff.rfl

@[simp] theorem wp_bind : wp (m >>= f) R E s ↔ wp m (fun a t => wp (f a) R E t) E s := by
  have unfolded : (m >>= f) s = match m s with
      | .ok r => f r.1 r.2
      | .error e => .error e := by
    change (m s >>= fun r => f r.1 r.2) = _
    cases m s <;> rfl
  unfold wp
  rw [unfolded]
  cases m s <;> rfl

theorem wp_ite {c : Prop} [Decidable c] {m' : Prog ε σ α} :
    wp (if c then m else m') Q E s ↔ (c → wp m Q E s) ∧ (¬ c → wp m' Q E s) := by
  by_cases holds : c <;> simp [holds]

theorem wp_mono {Q' : α → σ → Prop} {E' : ε → Prop} (holds : wp m Q E s)
    (result : ∀ a t, Q a t → Q' a t) (panics : ∀ e, E e → E' e) : wp m Q' E' s := by
  unfold wp at *
  cases ran : m s with
  | ok r => rw [ran] at holds; exact result _ _ holds
  | error e => rw [ran] at holds; exact panics _ holds

theorem wp_trivial : wp m (fun _ _ => True) (fun _ => True) s := by
  unfold wp
  cases m s <;> trivial

theorem wp_seq (first : wp m Q E s) (rest : ∀ a t, Q a t → wp (f a) R E t) :
    wp (m >>= f) R E s :=
  wp_bind.mpr (wp_mono first rest fun _ panics => panics)

theorem wp_and {Q' : α → σ → Prop} {E' : ε → Prop} (left : wp m Q E s) (right : wp m Q' E' s) :
    wp m (fun a t => Q a t ∧ Q' a t) (fun e => E e ∧ E' e) s := by
  unfold wp at *
  cases ran : m s with
  | ok r => rw [ran] at left right; exact ⟨left, right⟩
  | error e => rw [ran] at left right; exact ⟨left, right⟩

theorem wp_seq_and {Q' : α → σ → Prop} {E' : ε → Prop} (left : wp m Q E s) (right : wp m Q' E' s)
    (rest : ∀ a t, Q a t → Q' a t → wp (f a) R E t) : wp (m >>= f) R E s :=
  wp_bind.mpr (wp_mono (wp_and left right) (fun a t both => rest a t both.1 both.2)
    fun _ panics => panics.1)

theorem wp_forall {ι : Type} {Q : ι → α → σ → Prop} (each : ∀ i, wp m (Q i) (fun _ => True) s) :
    wp m (fun a t => ∀ i, Q i a t) (fun _ => True) s := by
  unfold wp at *
  cases ran : m s with
  | ok r =>
    rw [ran] at each
    exact each
  | error e => trivial

theorem wp_ok {a : α} {t : σ} (holds : wp m Q E s) (ran : m s = .ok (a, t)) : Q a t := by
  unfold wp at holds
  rwa [ran] at holds

theorem wp_total (holds : wp m Q (fun _ => False) s) : ∃ a t, m s = .ok (a, t) ∧ Q a t := by
  unfold wp at holds
  cases ran : m s with
  | ok r =>
    rw [ran] at holds
    exact ⟨r.1, r.2, rfl, holds⟩
  | error e =>
    rw [ran] at holds
    exact holds.elim

theorem wp_of_ok {a : α} {t : σ} (ran : m s = .ok (a, t)) (holds : Q a t) : wp m Q E s := by
  unfold wp
  rwa [ran]

theorem ok_pure {a a' : α} {t : σ} : (pure a : Prog ε σ α) s = .ok (a', t) ↔ a = a' ∧ s = t := by
  change Except.ok (a, s) = Except.ok (a', t) ↔ _
  simp

theorem ok_read {s' t : σ} : (read : Prog ε σ σ) s = .ok (s', t) ↔ s = s' ∧ s = t := by
  change Except.ok (s, s) = Except.ok (s', t) ↔ _
  simp

theorem ok_update {g : σ → σ} {t : σ} : (update g : Prog ε σ Unit) s = .ok ((), t) ↔ g s = t := by
  change Except.ok ((), g s) = Except.ok ((), t) ↔ _
  simp

theorem ok_bind {r : β × σ} : (m >>= f) s = .ok r ↔ ∃ a t, m s = .ok (a, t) ∧ f a t = .ok r := by
  change (m s >>= fun r => f r.1 r.2) = .ok r ↔ _
  cases ran : m s with
  | error e =>
    change Except.error e = Except.ok r ↔ _
    simp
  | ok first =>
    change f first.1 first.2 = Except.ok r ↔ _
    constructor
    · exact fun rest => ⟨first.1, first.2, rfl, rest⟩
    · rintro ⟨a, t, same, rest⟩
      obtain rfl := Except.ok.inj same
      exact rest

theorem wp_self : wp m (fun a t => m s = .ok (a, t)) (fun e => m s = .error e) s := by
  unfold wp
  cases m s <;> rfl

theorem ok_of_discard {t : σ} (ran : (m >>= fun _ => (pure () : Prog ε σ Unit)) s = .ok ((), t)) :
    ∃ a, m s = .ok (a, t) := by
  have ended : wp m (fun a t' => t' = t ∧ m s = .ok (a, t')) (fun _ => False) s := by
    have first := wp_bind.mp (wp_of_ok (Q := fun _ t' => t' = t) (E := fun _ => False) ran rfl)
    exact wp_mono (wp_and first wp_self) (fun _ _ result => result) fun _ panics => panics.1
  obtain ⟨a, t', _, rfl, result⟩ := wp_total ended
  exact ⟨a, result⟩

end Prog

end SystemsSuite.Lib
