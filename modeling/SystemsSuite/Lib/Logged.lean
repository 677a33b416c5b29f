import Mathlib

set_option autoImplicit false

namespace SystemsSuite.Lib

structure Logged (ε α : Type) where
  value : α
  log : List ε

namespace Logged

variable {ε α β : Type}

instance : Monad (Logged ε) where
  pure a := ⟨a, []⟩
  bind m f := ⟨(f m.value).value, m.log ++ (f m.value).log⟩

def event (e : ε) : Logged ε Unit := ⟨(), [e]⟩

@[simp] theorem value_pure (a : α) : (pure a : Logged ε α).value = a := rfl

@[simp] theorem value_bind (m : Logged ε α) (f : α → Logged ε β) :
    (m >>= f).value = (f m.value).value := rfl

@[simp] theorem value_event (e : ε) : (event e).value = () := rfl

@[simp] theorem value_ite (c : Prop) [Decidable c] (m m' : Logged ε α) :
    (if c then m else m').value = if c then m.value else m'.value := by
  split <;> rfl

-- Every event of the log satisfies `P`.
def Within (m : Logged ε α) (P : ε → Prop) : Prop := ∀ e ∈ m.log, P e

variable {P : ε → Prop}

@[simp] theorem within_pure (a : α) : (pure a : Logged ε α).Within P ↔ True := by
  simp [Within, pure]

@[simp] theorem within_event (e : ε) : (event e).Within P ↔ P e := by
  simp [Within, event]

@[simp] theorem within_bind (m : Logged ε α) (f : α → Logged ε β) :
    (m >>= f).Within P ↔ m.Within P ∧ (f m.value).Within P := by
  simp only [Within, bind, List.mem_append, or_imp, forall_and]

@[simp] theorem within_ite (c : Prop) [Decidable c] (m m' : Logged ε α) :
    (if c then m else m').Within P ↔ (c → m.Within P) ∧ (¬ c → m'.Within P) := by
  by_cases holds : c <;> simp [holds]

theorem Within.mono {m : Logged ε α} {Q : ε → Prop} (within : m.Within P) (weaker : ∀ e, P e → Q e) :
    m.Within Q :=
  fun e logged => weaker e (within e logged)

end Logged

end SystemsSuite.Lib
