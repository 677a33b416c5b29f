import SystemsSuite.Files.PipeTraffic

set_option autoImplicit false

namespace SystemsSuite.Files

open Lib

def Pipe.Idle (pi : Pipe) : Channel → Prop
  | .nread => pi.empty = true ∧ pi.writeopen = true
  | .nwrite => pi.full = true ∧ pi.readopen = true

namespace PipeState

variable {s s' : PipeState} {p q : Nat} {c : Call} {chan : Channel}

def Waits (s : PipeState) (p : Nat) (c : Call) : Prop := s.threads p = .asleep c ∨ s.threads p = .dozing c

-- `p` is in a loop that ends with a `wakeup` of the channel.
def Owes (s : PipeState) (p : Nat) : Channel → Prop
  | .nread => ∃ todo i, s.threads p = .inside (.write todo i) ∧ s.pipe.readopen = true ∧ s.killed p = false
  | .nwrite => ∃ room i, s.threads p = .inside (.copy room i)

def Holds (s : PipeState) (p : Nat) : Prop := ∃ c, s.threads p = .inside c ∨ s.threads p = .dozing c

structure Attended (s : PipeState) : Prop where
  lock : ∀ p, s.Holds p → s.holder = some p
  held : ∀ p, s.holder = some p → s.Holds p
  waiting : ∀ p c, s.Waits p c → s.pipe.Idle c.channel ∨ ∃ q, s.Owes q c.channel

theorem Owes.inside (owes : s.Owes p chan) : ∃ c, s.threads p = .inside c := by
  cases chan with
  | nread =>
    obtain ⟨todo, i, here, -⟩ := owes
    exact ⟨_, here⟩
  | nwrite =>
    obtain ⟨room, i, here⟩ := owes
    exact ⟨_, here⟩

theorem Owes.holds (owes : s.Owes p chan) : s.Holds p := by
  obtain ⟨c, here⟩ := owes.inside
  exact ⟨c, .inl here⟩

theorem not_holds_of_away {r : Int} (gone : s.threads p = .away r) : ¬s.Holds p := by
  rintro ⟨c, here⟩
  rw [gone] at here
  obtain here | here := here <;> contradiction

theorem not_holds_of_asleep (slept : s.threads p = .asleep c) : ¬s.Holds p := by
  rintro ⟨c', here⟩
  rw [slept] at here
  obtain here | here := here <;> contradiction

theorem setThread_same : s.setThread p (s.threads p) = s := by
  unfold setThread
  rw [Function.update_eq_self]

theorem Owes.setThread {t : Thread} (owes : s.Owes q chan) (other : q ≠ p) : (s.setThread p t).Owes q chan := by
  have kept : (s.setThread p t).threads q = s.threads q := setThread_other other
  cases chan with
  | nread =>
    obtain ⟨todo, i, here, rest⟩ := owes
    exact ⟨todo, i, kept.trans here, rest⟩
  | nwrite =>
    obtain ⟨room, i, here⟩ := owes
    exact ⟨room, i, kept.trans here⟩

theorem Waits.setThread {t : Thread} (waits : (s.setThread p t).Waits q c) :
    (q = p ∧ (t = .asleep c ∨ t = .dozing c)) ∨ q ≠ p ∧ s.Waits q c := by
  unfold Waits at *
  by_cases same : q = p
  · subst same
    rw [setThread_self] at waits
    exact .inl ⟨rfl, waits⟩
  · rw [setThread_other same] at waits
    exact .inr ⟨same, waits⟩

theorem Holds.setThread {t : Thread} (holds : (s.setThread p t).Holds q) :
    (q = p ∧ ∃ c, t = .inside c ∨ t = .dozing c) ∨ q ≠ p ∧ s.Holds q := by
  unfold Holds at *
  by_cases same : q = p
  · subst same
    rw [setThread_self] at holds
    exact .inl ⟨rfl, holds⟩
  · rw [setThread_other same] at holds
    exact .inr ⟨same, holds⟩

theorem Holds.wakeup (holds : (s.wakeup chan).Holds p) : s.Holds p := by
  obtain ⟨c, here⟩ := holds
  obtain same | ⟨c', slept, ready⟩ := s.wakeup_roused chan p
  · rw [same] at here
    exact ⟨c, here⟩
  · rw [ready] at here
    obtain here | here := here <;> contradiction

theorem Waits.wakeup (waits : (s.wakeup chan).Waits p c) : s.Waits p c ∧ (c.channel = chan → s.Holds p) := by
  obtain slept | dozing := waits
  · unfold PipeState.wakeup at slept
    simp only at slept
    split at slept
    next c' here =>
      split_ifs at slept with same
      obtain rfl := Thread.asleep.inj slept
      exact ⟨.inl here, fun there => absurd there same⟩
    next awake => exact absurd slept (awake c)
  · obtain same | ⟨c', slept, ready⟩ := s.wakeup_roused chan p
    · rw [same] at dozing
      exact ⟨.inr dozing, fun _ => ⟨c, .inr dozing⟩⟩
    · rw [ready] at dozing
      contradiction

section Turn

variable (attended : s.Attended) (here : s.threads p = .inside c)

include attended here

theorem Attended.only (holds : s.Holds q) : q = p := by
  have mine := attended.lock p ⟨c, .inl here⟩
  have other := attended.lock q holds
  exact Option.some.inj (other.symm.trans mine)

theorem Attended.idle {c' : Call} (waits : s.Waits q c') : s.pipe.Idle c'.channel ∨ s.Owes p c'.channel := by
  obtain idle | ⟨r, owes⟩ := attended.waiting q c' waits
  · exact .inl idle
  · obtain rfl := attended.only here owes.holds
    exact .inr owes

theorem Attended.leave {r : Int} {s' : PipeState} (holds : ∀ q, s'.Holds q → s.Holds q)
    (waits : ∀ q c', q ≠ p → s'.Waits q c' → s'.pipe.Idle c'.channel) : (s'.leave p r).Attended := by
  have away : ∀ c', ¬(Thread.away r = .asleep c' ∨ Thread.away r = .dozing c') := by simp
  refine ⟨fun q held => ?_, nofun, fun q c' waiting => ?_⟩
  · obtain ⟨-, c', mine⟩ | ⟨other, held⟩ := Holds.setThread held
    · simp at mine
    · exact absurd (attended.only here (holds q held)) other
  · obtain ⟨-, mine⟩ | ⟨other, waiting⟩ := Waits.setThread waiting
    · exact absurd mine (away c')
    · exact .inl (waits q c' other waiting)

theorem Attended.stay {t : Thread} {s' : PipeState} (holder : s'.holder = s.holder)
    (goes : ∃ c', t = .inside c' ∨ t = .dozing c')
    (holds : ∀ q, s'.Holds q → s.Holds q)
    (mine : ∀ c', t = .asleep c' ∨ t = .dozing c' → s'.pipe.Idle c'.channel)
    (waits : ∀ q c', q ≠ p → s'.Waits q c' → s'.pipe.Idle c'.channel ∨ (s'.setThread p t).Owes p c'.channel) :
    (s'.setThread p t).Attended := by
  have held := attended.lock p ⟨c, .inl here⟩
  refine ⟨fun q holding => ?_, fun q mine => ?_, fun q c' waiting => ?_⟩
  · obtain ⟨rfl, -⟩ | ⟨other, holding⟩ := Holds.setThread holding
    · exact holder.trans held
    · exact absurd (attended.only here (holds q holding)) other
  · obtain rfl := Option.some.inj (held.symm.trans (holder.symm.trans mine))
    obtain ⟨c', goes⟩ := goes
    refine ⟨c', ?_⟩
    rw [setThread_self]
    exact goes
  · obtain ⟨rfl, dozing⟩ | ⟨other, waiting⟩ := Waits.setThread waiting
    · exact .inl (mine c' dozing)
    · exact (waits q c' other waiting).imp id fun owes => ⟨p, owes⟩

theorem Attended.woken {c' : Call} (waits : (s.wakeup chan).Waits q c') (other : q ≠ p) :
    c'.channel ≠ chan ∧ s.Waits q c' := by
  obtain ⟨before, held⟩ := waits.wakeup
  exact ⟨fun there => other (attended.only here (held there)), before⟩

end Turn

theorem Channel.of_ne_nread (other : chan ≠ .nread) : chan = .nwrite := by
  cases chan with
  | nread => exact absurd rfl other
  | nwrite => rfl

theorem Channel.of_ne_nwrite (other : chan ≠ .nwrite) : chan = .nread := by
  cases chan with
  | nread => rfl
  | nwrite => exact absurd rfl other

theorem Attended.turn (attended : s.Attended) (here : s.threads p = .inside c) : (s.turn p c).Attended := by
  cases c with
  | write todo i =>
    -- A writer owes nothing to the writers.
    have writers {q : Nat} {c' : Call} (waits : s.Waits q c') (channel : c'.channel = .nwrite) :
        s.pipe.Idle .nwrite := by
      obtain idle | ⟨room, j, copies⟩ := channel ▸ attended.idle here waits
      · exact idle
      · have same := Thread.inside.inj (here.symm.trans copies)
        contradiction
    have ends (r : Int) : ((s.wakeup .nread).leave p r).Attended := by
      refine attended.leave here (fun q => Holds.wakeup) fun q c' other waits => ?_
      obtain ⟨elsewhere, before⟩ := attended.woken here waits other
      have channel := Channel.of_ne_nread elsewhere
      rw [channel]
      exact writers before channel
    cases todo with
    | nil => exact ends i
    | cons src rest =>
      rw [PipeState.turn]
      split_ifs with gone full
      · refine attended.leave here (fun q => id) fun q c' other waits => ?_
        obtain idle | owes := attended.idle here waits
        · exact idle
        · cases channel : c'.channel with
          | nread =>
            rw [channel] at owes
            obtain ⟨_, _, _, readopen, alive⟩ := owes
            rw [readopen, alive] at gone
            simp at gone
          | nwrite => exact writers waits channel
      · refine attended.stay here rfl ⟨_, .inr rfl⟩ (fun q => Holds.wakeup) (fun c' dozing => ?_) fun q c' other waits => .inl ?_
        · obtain dozing | dozing := dozing
          · contradiction
          · obtain rfl := Thread.dozing.inj dozing
            exact ⟨full, Bool.eq_true_of_not_eq_false fun closed => gone (.inl closed)⟩
        · obtain ⟨elsewhere, before⟩ := attended.woken here waits other
          have channel := Channel.of_ne_nread elsewhere
          rw [channel]
          exact writers before channel
      · cases src with
        | none => exact ends i
        | some ch =>
          refine attended.stay here rfl ⟨_, .inl rfl⟩ (fun q => id) (fun c' dozing => ?_) fun q c' other waits => ?_
          · obtain dozing | dozing := dozing <;> contradiction
          · cases channel : c'.channel with
            | nread =>
              obtain ⟨readopen, alive⟩ := not_or.mp gone
              exact .inr ⟨rest, i + 1, setThread_self, Bool.eq_true_of_not_eq_false readopen, Bool.eq_false_iff.mpr alive⟩
            | nwrite => exact absurd (writers waits channel).1 full
  | read room =>
    have idle {q : Nat} {c' : Call} (waits : s.Waits q c') : s.pipe.Idle c'.channel := by
      obtain idle | owes := attended.idle here waits
      · exact idle
      · cases channel : c'.channel with
        | nread =>
          obtain ⟨_, _, writes, -⟩ := channel ▸ owes
          have same := Thread.inside.inj (here.symm.trans writes)
          contradiction
        | nwrite =>
          obtain ⟨_, _, copies⟩ := channel ▸ owes
          have same := Thread.inside.inj (here.symm.trans copies)
          contradiction
    rw [PipeState.turn]
    split_ifs with empty dead
    · exact attended.leave here (fun q => id) fun q c' _ waits => idle waits
    · refine attended.stay here rfl ⟨_, .inr rfl⟩ (fun q => id) (fun c' dozing => ?_) fun q c' _ waits => .inl (idle waits)
      obtain dozing | dozing := dozing
      · contradiction
      · obtain rfl := Thread.dozing.inj dozing
        exact empty
    · refine attended.stay here rfl ⟨_, .inl rfl⟩ (fun q => id) (fun c' dozing => ?_) fun q c' _ waits => .inl (idle waits)
      obtain dozing | dozing := dozing <;> contradiction
  | copy room i =>
    -- A reader owes nothing to the readers.
    have readers {q : Nat} {c' : Call} (waits : s.Waits q c') (channel : c'.channel = .nread) :
        s.pipe.Idle .nread := by
      obtain idle | ⟨_, _, writes, -⟩ := channel ▸ attended.idle here waits
      · exact idle
      · have same := Thread.inside.inj (here.symm.trans writes)
        contradiction
    have ends (r : Int) : ((s.wakeup .nwrite).leave p r).Attended := by
      refine attended.leave here (fun q => Holds.wakeup) fun q c' other waits => ?_
      obtain ⟨elsewhere, before⟩ := attended.woken here waits other
      have channel := Channel.of_ne_nwrite elsewhere
      rw [channel]
      exact readers before channel
    cases room with
    | nil => exact ends i
    | cons ok rest =>
      rw [PipeState.turn]
      split_ifs with nothing fits
      · exact ends i
      · refine attended.stay here rfl ⟨_, .inl rfl⟩ (fun q => id) (fun c' dozing => ?_) fun q c' other waits => ?_
        · obtain dozing | dozing := dozing <;> contradiction
        · cases channel : c'.channel with
          | nread => exact absurd (readers waits channel).1 nothing
          | nwrite => exact .inr ⟨rest, i + 1, setThread_self⟩
      · refine attended.leave here (fun q => Holds.wakeup) fun q c' other waits => ?_
        obtain ⟨elsewhere, before⟩ : c'.channel ≠ .nwrite ∧ s.Waits q c' := attended.woken here waits other
        exact absurd (readers before (Channel.of_ne_nwrite elsewhere)).1 nothing

-- Nobody kills a process that is in the loop of a `pipewrite`.
def SparesWriter (s : PipeState) : PipeStep → Prop
  | .kill p => ∀ todo i, s.threads p ≠ .inside (.write todo i)
  | _ => True

-- A process that has not the lock becomes `ready`.
theorem Attended.ready {c : Call} (attended : s.Attended) (outside : ¬s.Holds p) :
    (s.setThread p (.ready c)).Attended := by
  refine ⟨fun q held => ?_, fun q mine => ?_, fun q c' waiting => ?_⟩
  · obtain ⟨-, c', here | here⟩ | ⟨-, held⟩ := Holds.setThread held
    · contradiction
    · contradiction
    · exact attended.lock q held
  · have held := attended.held q mine
    have other : q ≠ p := by
      rintro rfl
      exact outside held
    unfold Holds
    rw [setThread_other other]
    exact held
  · obtain ⟨-, here | here⟩ | ⟨-, waiting⟩ := Waits.setThread waiting
    · contradiction
    · contradiction
    · obtain idle | ⟨r, owes⟩ := attended.waiting q c' waiting
      · exact .inl idle
      · refine .inr ⟨r, owes.setThread ?_⟩
        rintro rfl
        exact outside owes.holds

theorem Attended.free (attended : s.Attended) (free : s.holder = none) (waits : s.Waits q c) :
    s.pipe.Idle c.channel := by
  obtain idle | ⟨r, owes⟩ := attended.waiting q c waits
  · exact idle
  · have held := attended.lock r owes.holds
    rw [free] at held
    contradiction

theorem Attended.dozing {c' : Call} (attended : s.Attended) (dozing : s.threads p = .dozing c)
    (waits : s.Waits q c') : s.pipe.Idle c'.channel := by
  obtain idle | ⟨r, owes⟩ := attended.waiting q c' waits
  · exact idle
  · obtain ⟨c'', here⟩ := owes.inside
    have mine := attended.lock p ⟨c, .inr dozing⟩
    obtain rfl := Option.some.inj (mine.symm.trans (attended.lock r owes.holds))
    rw [here] at dozing
    contradiction

theorem Attended.killed (attended : s.Attended) (spares : s.SparesWriter (.kill p)) :
    Attended { s with killed := Function.update s.killed p true } := by
  refine ⟨attended.lock, attended.held, fun q c waits => (attended.waiting q c waits).imp id ?_⟩
  rintro ⟨r, owes⟩
  refine ⟨r, ?_⟩
  cases channel : c.channel with
  | nread =>
    obtain ⟨todo, i, here, readopen, alive⟩ := channel ▸ owes
    have other : r ≠ p := by
      rintro rfl
      exact spares todo i here
    exact ⟨todo, i, here, readopen, (Function.update_of_ne other ..).trans alive⟩
  | nwrite =>
    rw [channel] at owes
    exact owes

theorem Attended.pipeclose (attended : s.Attended) (free : s.holder = none) (writable : Bool) :
    (s.pipeclose writable).Attended := by
  have nobody (q : Nat) : ¬s.Holds q := by
    intro held
    have other := attended.lock q held
    rw [free] at other
    contradiction
  have woken (s' : PipeState) (chan : Channel) (threads : s'.threads = s.threads)
      (holder : s'.holder = s.holder)
      (idle : ∀ c : Call, c.channel ≠ chan → s.pipe.Idle c.channel → s'.pipe.Idle c.channel) :
      (s'.wakeup chan).Attended := by
    have holds (q : Nat) (held : s'.Holds q) : s.Holds q := by
      unfold Holds at *
      rw [threads] at held
      exact held
    refine ⟨fun q held => absurd (holds q held.wakeup) (nobody q), fun q mine => ?_, fun q c waits => .inl ?_⟩
    · rw [show (s'.wakeup chan).holder = none from holder.trans free] at mine
      contradiction
    obtain ⟨before, held⟩ := waits.wakeup
    have elsewhere : c.channel ≠ chan := fun there => nobody q (holds q (held there))
    unfold Waits at before
    rw [threads] at before
    exact idle c elsewhere (attended.free free before)
  unfold PipeState.pipeclose
  split_ifs
  · refine woken _ .nread rfl rfl fun c elsewhere idle => ?_
    rw [Channel.of_ne_nread elsewhere] at idle ⊢
    exact idle
  · refine woken _ .nwrite rfl rfl fun c elsewhere idle => ?_
    rw [Channel.of_ne_nwrite elsewhere] at idle ⊢
    exact idle

theorem Attended.next {l : PipeStep} (attended : s.Attended) (spares : s.SparesWriter l)
    (taken : s.next l = some s') : s'.Attended := by
  cases l with
  | write p src =>
    obtain ⟨⟨r, gone⟩, rfl⟩ := call_some taken
    exact attended.ready (not_holds_of_away gone)
  | read p room =>
    obtain ⟨⟨r, gone⟩, rfl⟩ := call_some taken
    exact attended.ready (not_holds_of_away gone)
  | acquire p =>
    obtain ⟨free, c, waiting, rfl⟩ := acquire_some taken
    refine ⟨fun q held => ?_, fun q mine => ?_, fun q c' waits => .inl ?_⟩
    · obtain ⟨rfl, -⟩ | ⟨-, held⟩ := Holds.setThread (s := s) held
      · rfl
      · have other := attended.lock q held
        rw [free] at other
        contradiction
    · obtain rfl := Option.some.inj mine
      exact ⟨c, .inl setThread_self⟩
    · obtain ⟨-, here | here⟩ | ⟨-, waits⟩ := Waits.setThread (s := s) waits
      · contradiction
      · contradiction
      · exact attended.free free waits
  | turn p =>
    obtain ⟨c, here, rfl⟩ | ⟨c, dozing, rfl⟩ := turn_some taken
    · exact attended.turn here
    · refine ⟨fun q held => ?_, nofun, fun q c' waits => .inl ?_⟩
      · obtain ⟨-, c', here | here⟩ | ⟨other, held⟩ := Holds.setThread (s := s) held
        · contradiction
        · contradiction
        · have mine := attended.lock p ⟨c, .inr dozing⟩
          exact absurd (Option.some.inj ((attended.lock q held).symm.trans mine)) other
      · obtain ⟨rfl, slept | dozes⟩ | ⟨-, waits⟩ := Waits.setThread (s := s) waits
        · obtain rfl := Thread.asleep.inj slept
          exact attended.dozing dozing (.inr dozing)
        · contradiction
        · exact attended.dozing dozing waits
  | kill p =>
    have dead := attended.killed spares
    obtain ⟨t, rfl, ⟨rfl, -⟩ | ⟨c, slept, rfl⟩⟩ := kill_some taken
    · rw [show ({ s with killed := Function.update s.killed p true } : PipeState).setThread p (s.threads p) =
        { s with killed := Function.update s.killed p true } from setThread_same]
      exact dead
    · exact dead.ready (not_holds_of_asleep slept)
  | close writable =>
    obtain ⟨free, rfl⟩ := close_some taken
    exact attended.pipeclose free writable

-- The turns that a call takes at most before it lets the lock go.
def turnsLeft : Thread → Nat
  | .inside (.write todo _) => todo.length + 2
  | .inside (.read room) => room.length + 3
  | .inside (.copy room _) => room.length + 1
  | .dozing _ => 1
  | _ => 0

end PipeState

variable {s : PipeState}

-- A writer that is killed in its loop returns without the wakeup: the reader sleeps on over a byte.
example : ((System.execute PipeState.next (fun _ _ => true) pipeStart
    [.read 1 [true], .acquire 1, .turn 1, .turn 1, .write 0 [some 7, some 8], .acquire 0, .turn 0, .kill 0,
      .turn 0]).any fun s => decide (s.holder = none ∧ s.threads 0 = .away (-1) ∧
      s.threads 1 = .asleep (.read [true]) ∧ s.pipe.contents = [7])) = true := by
  decide +kernel

end SystemsSuite.Files
