import SystemsSuite.Files.Pipe

set_option autoImplicit false

namespace SystemsSuite.Files

open Lib

namespace Pipe

variable {pi : Pipe} {ch : UInt8}

def count (pi : Pipe) : Nat := (pi.nwrite + 2 ^ 32 - pi.nread) % 2 ^ 32

def contents (pi : Pipe) : List UInt8 := (List.range pi.count).map fun k => pi.data ((pi.nread + k) % pipeSize)

structure Sound (pi : Pipe) : Prop where
  reads : pi.nread < 2 ^ 32
  writes : pi.nwrite < 2 ^ 32
  fits : pi.count ≤ pipeSize

theorem put_nwrite : (pi.put ch).nwrite = (pi.nwrite + 1) % 2 ^ 32 := rfl

theorem put_nread : (pi.put ch).nread = pi.nread := rfl

theorem take_nwrite : pi.take.nwrite = pi.nwrite := rfl

theorem take_nread : pi.take.nread = (pi.nread + 1) % 2 ^ 32 := rfl

theorem Sound.empty_iff (sound : pi.Sound) : pi.empty = true ↔ pi.count = 0 := by
  have reads := sound.reads
  have writes := sound.writes
  unfold empty count
  rw [decide_eq_true_eq]
  omega

theorem Sound.full_iff (sound : pi.Sound) : pi.full = true ↔ pi.count = pipeSize := by
  have reads := sound.reads
  have writes := sound.writes
  unfold full count u32 pipeSize
  rw [decide_eq_true_eq]
  omega

theorem Sound.count_put (sound : pi.Sound) (room : pi.full = false) : (pi.put ch).count = pi.count + 1 := by
  have notFull : pi.count ≠ pipeSize := fun same => Bool.false_ne_true (room.symm.trans (sound.full_iff.mpr same))
  have reads := sound.reads
  have writes := sound.writes
  have fits := sound.fits
  unfold count pipeSize at *
  rw [put_nwrite, put_nread]
  omega

theorem Sound.put (sound : pi.Sound) (room : pi.full = false) : (pi.put ch).Sound := by
  have notFull : pi.count ≠ pipeSize := fun same => Bool.false_ne_true (room.symm.trans (sound.full_iff.mpr same))
  refine ⟨sound.reads, Nat.mod_lt _ (by decide), ?_⟩
  rw [sound.count_put room]
  have fits := sound.fits
  omega

-- The place of the next byte is behind the last one, also when the counters have wrapped.
theorem Sound.place (sound : pi.Sound) : pi.nwrite % pipeSize = (pi.nread + pi.count) % pipeSize := by
  have reads := sound.reads
  have writes := sound.writes
  unfold count pipeSize
  omega

theorem Sound.contents_put (sound : pi.Sound) (room : pi.full = false) :
    (pi.put ch).contents = pi.contents ++ [ch] := by
  have notFull : pi.count ≠ pipeSize := fun same => Bool.false_ne_true (room.symm.trans (sound.full_iff.mpr same))
  have fits := sound.fits
  have place := sound.place
  unfold contents
  rw [sound.count_put room, List.range_succ, List.map_append, List.map_singleton]
  congr 1
  · apply List.map_congr_left
    intro k member
    have inside := List.mem_range.mp member
    have apart : (pi.nread + k) % pipeSize ≠ pi.nwrite % pipeSize := by
      rw [place]
      unfold pipeSize at *
      omega
    exact Function.update_of_ne apart ..
  · change [Function.update pi.data (pi.nwrite % pipeSize) ch ((pi.nread + pi.count) % pipeSize)] = [ch]
    rw [place, Function.update_self]

theorem Sound.count_take (sound : pi.Sound) (some_ : pi.empty = false) : pi.count = pi.take.count + 1 := by
  have notEmpty : pi.count ≠ 0 := fun same => Bool.false_ne_true (some_.symm.trans (sound.empty_iff.mpr same))
  have reads := sound.reads
  have writes := sound.writes
  have fits := sound.fits
  unfold count pipeSize at *
  rw [take_nwrite, take_nread]
  omega

theorem Sound.take (sound : pi.Sound) (some_ : pi.empty = false) : pi.take.Sound := by
  have fewer := sound.count_take some_
  have fits := sound.fits
  exact ⟨Nat.mod_lt _ (by decide), sound.writes, by omega⟩

theorem Sound.contents_take (sound : pi.Sound) (some_ : pi.empty = false) :
    pi.contents = pi.next :: pi.take.contents := by
  unfold contents
  rw [sound.count_take some_, List.range_succ_eq_map, List.map_cons, List.map_map]
  congr 1
  apply List.map_congr_left
  intro k _
  change pi.data ((pi.nread + (k + 1)) % pipeSize) = pi.data ((pi.take.nread + k) % pipeSize)
  rw [take_nread]
  congr 1
  unfold pipeSize
  omega

theorem Sound.closed {readopen writeopen : Bool} (sound : pi.Sound) :
    Sound { pi with readopen := readopen, writeopen := writeopen } :=
  ⟨sound.reads, sound.writes, sound.fits⟩

theorem opened_sound : opened.Sound := ⟨by decide, by decide, by decide⟩

theorem length_contents (pi : Pipe) : pi.contents.length = pi.count := by
  unfold contents
  rw [List.length_map, List.length_range]

theorem put_moves (sound : pi.Sound) : (pi.put ch).nwrite ≠ pi.nwrite := by
  have writes := sound.writes
  rw [put_nwrite]
  omega

theorem take_moves (sound : pi.Sound) : pi.take.nread ≠ pi.nread := by
  have reads := sound.reads
  rw [take_nread]
  omega

end Pipe

namespace PipeState

variable {s s' : PipeState} {p : Nat}

theorem call_some {c : Call} (taken : s.call p c = some s') :
    (∃ r, s.threads p = .away r) ∧ s' = s.setThread p (.ready c) := by
  unfold call at taken
  split at taken
  next r gone => exact ⟨⟨r, gone⟩, (Option.some.inj taken).symm⟩
  next => contradiction

theorem acquire_some (taken : s.next (.acquire p) = some s') :
    s.holder = none ∧ ∃ c, s.threads p = .ready c ∧ s' = { s.setThread p (.inside c) with holder := some p } := by
  simp only [next] at taken
  split at taken
  next c free waiting => exact ⟨free, c, waiting, (Option.some.inj taken).symm⟩
  next => contradiction

theorem turn_some (taken : s.next (.turn p) = some s') :
    (∃ c, s.threads p = .inside c ∧ s' = s.turn p c) ∨ ∃ c, s.threads p = .dozing c ∧ s' = s.sleep p c := by
  simp only [next] at taken
  split at taken
  next c here => exact .inl ⟨c, here, (Option.some.inj taken).symm⟩
  next c here => exact .inr ⟨c, here, (Option.some.inj taken).symm⟩
  next => contradiction

theorem kill_some (taken : s.next (.kill p) = some s') :
    ∃ t, s' = { s with killed := Function.update s.killed p true }.setThread p t ∧
      (t = s.threads p ∧ (∀ c, t ≠ .asleep c) ∨ ∃ c, s.threads p = .asleep c ∧ t = .ready c) := by
  simp only [next] at taken
  split at taken
  next c slept => exact ⟨.ready c, (Option.some.inj taken).symm, .inr ⟨c, slept, rfl⟩⟩
  next awake =>
    refine ⟨s.threads p, (Option.some.inj taken).symm.trans ?_, .inl ⟨rfl, awake⟩⟩
    unfold setThread
    rw [Function.update_eq_self]

theorem close_some {writable : Bool} (taken : s.next (.close writable) = some s') :
    s.holder = none ∧ s' = s.pipeclose writable := by
  simp only [next] at taken
  split_ifs at taken with free
  exact ⟨free, (Option.some.inj taken).symm⟩

end PipeState

def Thread.call : Thread → Option Call
  | .away _ => none
  | .ready c | .inside c | .dozing c | .asleep c => some c

def Thread.Roused (t t' : Thread) : Prop := t' = t ∨ ∃ c, t = .asleep c ∧ t' = .ready c

namespace Thread.Roused

variable {t t' : Thread}

theorem call (roused : t.Roused t') : t'.call = t.call := by
  obtain rfl | ⟨c, rfl, rfl⟩ := roused <;> rfl

theorem away {r : Int} (roused : t.Roused t') (gone : t' = .away r) : t = .away r := by
  obtain rfl | ⟨c, rfl, rfl⟩ := roused
  · exact gone
  · contradiction

end Thread.Roused

namespace PipeState

variable {s : PipeState} {p q : Nat}

@[simp] theorem setThread_self {t : Thread} : (s.setThread p t).threads p = t := Function.update_self ..

theorem setThread_other {t : Thread} (other : q ≠ p) : (s.setThread p t).threads q = s.threads q :=
  Function.update_of_ne other ..

@[simp] theorem leave_self {r : Int} : (s.leave p r).threads p = .away r := setThread_self

@[simp] theorem sleep_self {c : Call} : (s.sleep p c).threads p = .asleep c := setThread_self

theorem wakeup_roused (s : PipeState) (chan : Channel) (p : Nat) :
    (s.threads p).Roused ((s.wakeup chan).threads p) := by
  unfold wakeup
  simp only
  cases s.threads p with
  | asleep c =>
    simp only
    split_ifs
    · exact .inr ⟨c, rfl, rfl⟩
    · exact .inl rfl
  | away r => exact .inl rfl
  | ready c => exact .inl rfl
  | inside c => exact .inl rfl
  | dozing c => exact .inl rfl

-- Why a `pipewrite` returns `r` after `i` bytes, with `todo` left to write.
def Ends (s : PipeState) (p : Nat) (todo : List (Option UInt8)) (i : Nat) (r : Int) : Prop :=
  r = -1 ∧ (s.pipe.readopen = false ∨ s.killed p = true) ∨ r = i ∧ ∀ ch rest, todo ≠ some ch :: rest

-- What one turn of `p` can do to the pipe and to the calls.
inductive Turned (s : PipeState) (p : Nat) : Call → PipeState → Prop
  | put (ch : UInt8) (rest : List (Option UInt8)) (i : Nat) : s.pipe.full = false →
      Turned s p (.write (some ch :: rest) i)
        ({ s with pipe := s.pipe.put ch }.setThread p (.inside (.write rest (i + 1))))
  | took (ok : Bool) (room : List Bool) (i : Nat) (s' : PipeState) : s.pipe.empty = false →
      s'.pipe = s.pipe.take → s'.killed = s.killed → (∀ q ≠ p, (s.threads q).Roused (s'.threads q)) →
      (∀ c', (s'.threads p).call = some c' → c' = .copy room (i + 1)) → Turned s p (.copy (ok :: room) i) s'
  | kept (c : Call) (s' : PipeState) : s'.pipe = s.pipe → s'.killed = s.killed →
      (∀ q ≠ p, (s.threads q).Roused (s'.threads q)) →
      (∀ c', (s'.threads p).call = some c' → c' = c ∨ ∃ room, c = .read room ∧ c' = .copy room 0) →
      (∀ todo i r, c = .write todo i → s'.threads p = .away r → s.Ends p todo i r) → Turned s p c s'

theorem Turned.leave {c : Call} {r : Int} {s' : PipeState} (pipe : s'.pipe = s.pipe) (killed : s'.killed = s.killed)
    (others : ∀ q, (s.threads q).Roused (s'.threads q)) (ends : ∀ todo i, c = .write todo i → s.Ends p todo i r) :
    s.Turned p c (s'.leave p r) := by
  refine .kept c _ pipe killed (fun q other => ?_) (fun c' mine => ?_) fun todo i r' same gone => ?_
  · have kept : (s'.leave p r).threads q = s'.threads q := setThread_other other
    rw [kept]
    exact others q
  · rw [leave_self] at mine
    contradiction
  · rw [leave_self] at gone
    obtain rfl := Thread.away.inj gone
    exact ends todo i same

theorem Turned.doze {c : Call} {s' : PipeState} (pipe : s'.pipe = s.pipe) (killed : s'.killed = s.killed)
    (others : ∀ q, (s.threads q).Roused (s'.threads q)) : s.Turned p c (s'.setThread p (.dozing c)) := by
  refine .kept c _ pipe killed (fun q other => ?_) (fun c' mine => .inl ?_) fun todo i r' _ gone => ?_
  · rw [setThread_other other]
    exact others q
  · rw [setThread_self] at mine
    exact (Option.some.inj mine).symm
  · rw [setThread_self] at gone
    contradiction

theorem turn_turned (s : PipeState) (p : Nat) (c : Call) : s.Turned p c (s.turn p c) := by
  cases c with
  | write todo i =>
    cases todo with
    | nil =>
      refine .leave rfl rfl (s.wakeup_roused .nread) fun todo j same => .inr ?_
      obtain ⟨rfl, rfl⟩ := Call.write.inj same
      exact ⟨rfl, nofun⟩
    | cons src rest =>
      rw [turn]
      split_ifs with gone full
      · refine .leave rfl rfl (fun _ => .inl rfl) fun todo j same => .inl ⟨rfl, gone⟩
      · exact .doze rfl rfl (s.wakeup_roused .nread)
      · cases src with
        | none =>
          refine .leave rfl rfl (s.wakeup_roused .nread) fun todo j same => .inr ?_
          obtain ⟨rfl, rfl⟩ := Call.write.inj same
          exact ⟨rfl, nofun⟩
        | some ch => exact .put ch rest i (Bool.eq_false_iff.mpr full)
  | read room =>
    rw [turn]
    split_ifs with waits dead
    · exact .leave rfl rfl (fun _ => .inl rfl) nofun
    · exact .doze rfl rfl fun _ => .inl rfl
    · refine .kept _ _ rfl rfl (fun q other => ?_) (fun c' mine => .inr ⟨room, rfl, ?_⟩) nofun
      · rw [setThread_other other]
        exact .inl rfl
      · rw [setThread_self] at mine
        exact (Option.some.inj mine).symm
  | copy room i =>
    cases room with
    | nil => exact .leave rfl rfl (s.wakeup_roused .nwrite) nofun
    | cons ok rest =>
      rw [turn]
      split_ifs with nothing fits
      · exact .leave rfl rfl (s.wakeup_roused .nwrite) nofun
      · refine .took ok rest i _ (Bool.eq_false_iff.mpr nothing) rfl rfl (fun q other => ?_) fun c' mine => ?_
        · rw [setThread_other other]
          exact .inl rfl
        · rw [setThread_self] at mine
          exact (Option.some.inj mine).symm
      · refine .took ok rest i _ (Bool.eq_false_iff.mpr nothing) rfl rfl (fun q other => ?_) fun c' mine => ?_
        · have kept : (({ s with pipe := s.pipe.take } : PipeState).wakeup .nwrite |>.leave p i).threads q =
              (({ s with pipe := s.pipe.take } : PipeState).wakeup .nwrite).threads q := setThread_other other
          rw [kept]
          exact wakeup_roused { s with pipe := s.pipe.take } .nwrite q
        · rw [leave_self] at mine
          contradiction

end PipeState

-- What went in is what came out and then what is in the ring. A `pipewrite` has put in the first bytes of its
-- source, in order, and they are the last ones its process put in; when it returns there is a reason.
structure Carries (s : PipeState) (g : Traffic) : Prop where
  ring : s.pipe.Sound
  flow : g.sent.map Prod.snd = g.received.map Prod.snd ++ s.pipe.contents
  progress : ∀ p todo i, (s.threads p).call = some (.write todo i) →
    g.source p = some ((g.latest p).map some ++ todo) ∧ i = (g.latest p).length
  returned : ∀ p src r, g.source p = some src → s.threads p = .away r →
    ∃ todo, src = (g.latest p).map some ++ todo ∧ s.Ends p todo (g.latest p).length r
  writing : ∀ p src c, g.source p = some src → (s.threads p).call = some c → ∃ todo i, c = .write todo i
  own : ∀ p, g.latest p <:+ (g.sent.filter fun entry => entry.1 = p).map Prod.snd

variable {s s' : PipeState} {g : Traffic} {p : Nat}

theorem PipeState.Ends.mono {todo : List (Option UInt8)} {i : Nat} {r : Int} (ends : s.Ends p todo i r)
    (closed : s.pipe.readopen = false → s'.pipe.readopen = false) (dead : s.killed p = true → s'.killed p = true) :
    s'.Ends p todo i r := by
  obtain ⟨rfl, broken⟩ | finished := ends
  · exact .inl ⟨rfl, broken.imp closed dead⟩
  · exact .inr finished

theorem Carries.frame (carries : Carries s g) (ring : s'.pipe.Sound) (contents : s'.pipe.contents = s.pipe.contents)
    (closed : s.pipe.readopen = false → s'.pipe.readopen = false)
    (dead : ∀ p, s.killed p = true → s'.killed p = true) (calls : ∀ p, (s'.threads p).call = (s.threads p).call)
    (gone : ∀ p r, s'.threads p = .away r → s.threads p = .away r) : Carries s' g := by
  refine ⟨ring, ?_, ?_, ?_, ?_, carries.own⟩
  · rw [contents]
    exact carries.flow
  · intro p todo i writing
    rw [calls] at writing
    exact carries.progress p todo i writing
  · intro p src r source away
    obtain ⟨todo, split, ends⟩ := carries.returned p src r source (gone p r away)
    exact ⟨todo, split, ends.mono closed (dead p)⟩
  · intro p src c source mine
    rw [calls] at mine
    exact carries.writing p src c source mine

theorem Carries.put {ch : UInt8} {rest : List (Option UInt8)} {i : Nat} (carries : Carries s g)
    (calls : (s.threads p).call = some (.write (some ch :: rest) i)) (room : s.pipe.full = false) :
    Carries ({ s with pipe := s.pipe.put ch }.setThread p (.inside (.write rest (i + 1)))) (g.send p ch) := by
  have ring := carries.ring
  refine ⟨ring.put room, ?_, ?_, ?_, ?_, ?_⟩
  · change (g.sent ++ [(p, ch)]).map Prod.snd = g.received.map Prod.snd ++ (s.pipe.put ch).contents
    rw [ring.contents_put room, List.map_append, carries.flow, List.append_assoc]
    rfl
  · intro q todo j mine
    change g.source q = some ((Function.update g.latest p (g.latest p ++ [ch]) q).map some ++ todo) ∧
      j = (Function.update g.latest p (g.latest p ++ [ch]) q).length
    by_cases same : q = p
    · subst same
      rw [PipeState.setThread_self] at mine
      obtain ⟨rfl, rfl⟩ := Call.write.inj (Option.some.inj mine)
      obtain ⟨source, count⟩ := carries.progress q _ _ calls
      rw [Function.update_self, source, List.map_append, List.append_assoc, List.length_append, count]
      exact ⟨rfl, rfl⟩
    · rw [PipeState.setThread_other same] at mine
      rw [Function.update_of_ne same]
      exact carries.progress q todo j mine
  · intro q src r source away
    by_cases same : q = p
    · subst same
      rw [PipeState.setThread_self] at away
      contradiction
    · rw [PipeState.setThread_other same] at away
      change ∃ todo, src = (Function.update g.latest p (g.latest p ++ [ch]) q).map some ++ todo ∧
        s.Ends q todo (Function.update g.latest p (g.latest p ++ [ch]) q).length r
      rw [Function.update_of_ne same]
      exact carries.returned q src r source away
  · intro q src c source mine
    by_cases same : q = p
    · subst same
      rw [PipeState.setThread_self] at mine
      exact ⟨rest, i + 1, (Option.some.inj mine).symm⟩
    · rw [PipeState.setThread_other same] at mine
      exact carries.writing q src c source mine
  · intro q
    change Function.update g.latest p (g.latest p ++ [ch]) q <:+
      ((g.sent ++ [(p, ch)]).filter fun entry => entry.1 = q).map Prod.snd
    rw [List.filter_append, List.map_append]
    by_cases same : q = p
    · subst same
      have one : ([(q, ch)].filter fun entry => entry.1 = q).map Prod.snd = [ch] := by simp
      rw [Function.update_self, one]
      obtain ⟨earlier, split⟩ := carries.own q
      exact ⟨earlier, by rw [← split, List.append_assoc]⟩
    · have nothing : ([(p, ch)].filter fun entry => entry.1 = q) = [] := by simp [Ne.symm same]
      rw [Function.update_of_ne same, nothing, List.map_nil, List.append_nil]
      exact carries.own q

theorem Carries.turn {c : Call} (carries : Carries s g) (here : s.threads p = .inside c) :
    Carries (s.turn p c) (g.turn s p (s.turn p c) c) := by
  have ring := carries.ring
  have turned := s.turn_turned p c
  generalize s.turn p c = s' at turned
  have calls : (s.threads p).call = some c := by
    rw [here]
    rfl
  cases turned with
  | put ch rest i room =>
    have noted : g.turn s p ({ s with pipe := s.pipe.put ch }.setThread p (.inside (.write rest (i + 1))))
        (.write (some ch :: rest) i) = g.send p ch := if_neg (Pipe.put_moves ring)
    rw [noted]
    exact carries.put calls room
  | took ok room i s' some_ pipe killed others copies =>
    have moved : s'.pipe.nread ≠ s.pipe.nread := by
      rw [pipe]
      exact Pipe.take_moves ring
    have noted : g.turn s p s' (.copy (ok :: room) i) = g.receive p s.pipe.next := if_neg moved
    rw [noted]
    refine ⟨?_, ?_, ?_, ?_, ?_, carries.own⟩
    · rw [pipe]
      exact ring.take some_
    · change g.sent.map Prod.snd = (g.received ++ [(p, s.pipe.next)]).map Prod.snd ++ s'.pipe.contents
      rw [pipe, carries.flow, ring.contents_take some_, List.map_append, List.append_assoc]
      rfl
    · intro q todo j mine
      by_cases same : q = p
      · subst same
        have copying := copies _ mine
        contradiction
      · rw [(others q same).call] at mine
        exact carries.progress q todo j mine
    · intro q src r source away
      by_cases same : q = p
      · subst same
        obtain ⟨todo, j, writes⟩ := carries.writing q src _ source calls
        contradiction
      · obtain ⟨todo, split, ends⟩ := carries.returned q src r source ((others q same).away away)
        refine ⟨todo, split, ends.mono (fun closed => ?_) fun dead => ?_⟩
        · rw [pipe]
          exact closed
        · rw [killed]
          exact dead
    · intro q src c source mine
      by_cases same : q = p
      · subst same
        obtain ⟨todo, j, writes⟩ := carries.writing q src _ source calls
        contradiction
      · rw [(others q same).call] at mine
        exact carries.writing q src c source mine
  | kept c s' pipe killed others mine ends =>
    have noted : g.turn s p s' c = g := by
      unfold Traffic.turn
      rw [pipe]
      split
      · exact if_pos rfl
      · exact if_pos rfl
      · rfl
    have mono {q : Nat} {todo : List (Option UInt8)} {i : Nat} {r : Int} (ends : s.Ends q todo i r) :
        s'.Ends q todo i r := by
      refine ends.mono (fun closed => ?_) fun dead => ?_
      · rw [pipe]
        exact closed
      · rw [killed]
        exact dead
    rw [noted]
    refine ⟨?_, ?_, ?_, ?_, ?_, carries.own⟩
    · rw [pipe]
      exact ring
    · rw [pipe]
      exact carries.flow
    · intro q todo j writing
      by_cases same : q = p
      · subst same
        obtain rfl | ⟨room, reads, copies⟩ := mine _ writing
        · exact carries.progress q todo j calls
        · contradiction
      · rw [(others q same).call] at writing
        exact carries.progress q todo j writing
    · intro q src r source away
      by_cases same : q = p
      · subst same
        obtain ⟨todo, i, rfl⟩ := carries.writing q src c source calls
        obtain ⟨whole, count⟩ := carries.progress q todo i calls
        refine ⟨todo, Option.some.inj (source.symm.trans whole), ?_⟩
        rw [← count]
        exact mono (ends todo i r rfl away)
      · obtain ⟨todo, split, ends⟩ := carries.returned q src r source ((others q same).away away)
        exact ⟨todo, split, mono ends⟩
    · intro q src c' source mine'
      by_cases same : q = p
      · subst same
        obtain ⟨todo, i, rfl⟩ := carries.writing q src c source calls
        obtain rfl | ⟨room, reads, copies⟩ := mine c' mine'
        · exact ⟨todo, i, rfl⟩
        · contradiction
      · rw [(others q same).call] at mine'
        exact carries.writing q src c' source mine'

theorem Carries.begin {c : Call} {src : Option (List (Option UInt8))} (carries : Carries s g)
    (writes : ∀ todo i, c = .write todo i → src = some todo ∧ i = 0)
    (reads : ∀ todo, src = some todo → ∃ todo i, c = .write todo i) (taken : s.call p c = some s') :
    Carries s' (g.begin p src) := by
  obtain ⟨-, rfl⟩ := PipeState.call_some taken
  refine ⟨carries.ring, carries.flow, ?_, ?_, ?_, ?_⟩
  · intro q todo i writing
    change Function.update g.source p src q = some ((Function.update g.latest p [] q).map some ++ todo) ∧
      i = (Function.update g.latest p [] q).length
    by_cases same : q = p
    · subst same
      rw [PipeState.setThread_self] at writing
      rw [Function.update_self, Function.update_self]
      exact writes todo i (Option.some.inj writing)
    · rw [PipeState.setThread_other same] at writing
      rw [Function.update_of_ne same, Function.update_of_ne same]
      exact carries.progress q todo i writing
  · intro q src' r' source away
    by_cases same : q = p
    · subst same
      rw [PipeState.setThread_self] at away
      contradiction
    · rw [PipeState.setThread_other same] at away
      change Function.update g.source p src q = some src' at source
      change ∃ todo, src' = (Function.update g.latest p [] q).map some ++ todo ∧
        s.Ends q todo (Function.update g.latest p [] q).length r'
      rw [Function.update_of_ne same] at source ⊢
      exact carries.returned q src' r' source away
  · intro q src' c' source mine
    change Function.update g.source p src q = some src' at source
    by_cases same : q = p
    · subst same
      rw [Function.update_self] at source
      rw [PipeState.setThread_self] at mine
      obtain ⟨todo, i, rfl⟩ := reads src' source
      exact ⟨todo, i, (Option.some.inj mine).symm⟩
    · rw [PipeState.setThread_other same] at mine
      rw [Function.update_of_ne same] at source
      exact carries.writing q src' c' source mine
  · intro q
    change Function.update g.latest p [] q <:+ (g.sent.filter fun entry => entry.1 = q).map Prod.snd
    by_cases same : q = p
    · subst same
      rw [Function.update_self]
      exact List.nil_suffix
    · rw [Function.update_of_ne same]
      exact carries.own q

theorem Carries.move {t : Thread} (carries : Carries s g) (call : t.call = (s.threads p).call)
    (stays : ∀ r, t = .away r → s.threads p = .away r) : Carries (s.setThread p t) g := by
  refine carries.frame carries.ring rfl id (fun _ => id) (fun q => ?_) fun q r gone => ?_
  · by_cases same : q = p
    · subst same
      rw [PipeState.setThread_self]
      exact call
    · rw [PipeState.setThread_other same]
  · by_cases same : q = p
    · subst same
      rw [PipeState.setThread_self] at gone
      exact stays r gone
    · rw [PipeState.setThread_other same] at gone
      exact gone

theorem Carries.next {l : PipeStep} (carries : Carries s g) (taken : s.next l = some s') :
    Carries s' (g.note s l s') := by
  cases l with
  | write p src =>
    refine carries.begin (c := .write src 0) (fun todo i same => ?_) (fun todo _ => ⟨src, 0, rfl⟩) taken
    obtain ⟨rfl, rfl⟩ := Call.write.inj same
    exact ⟨rfl, rfl⟩
  | read p room => exact carries.begin (c := .read room) nofun nofun taken
  | acquire p =>
    obtain ⟨-, c, waiting, rfl⟩ := PipeState.acquire_some taken
    have moved : Carries (s.setThread p (.inside c)) g := carries.move (by rw [waiting]; rfl) nofun
    exact moved.frame moved.ring rfl id (fun _ => id) (fun _ => rfl) fun _ _ => id
  | turn p =>
    unfold Traffic.note
    obtain ⟨c, here, rfl⟩ | ⟨c, here, rfl⟩ := PipeState.turn_some taken
    · simp only [here]
      exact carries.turn here
    · simp only [here]
      have moved : Carries (s.setThread p (.asleep c)) g := carries.move (by rw [here]; rfl) nofun
      exact moved.frame moved.ring rfl id (fun _ => id) (fun _ => rfl) fun _ _ => id
  | kill p =>
    have dead : Carries { s with killed := Function.update s.killed p true } g := by
      refine carries.frame carries.ring rfl id (fun q already => ?_) (fun _ => rfl) fun _ _ => id
      by_cases same : q = p
      · subst same
        exact Function.update_self ..
      · rw [← already]
        exact Function.update_of_ne same ..
    obtain ⟨t, rfl, ⟨rfl, -⟩ | ⟨c, slept, rfl⟩⟩ := PipeState.kill_some taken
    · exact dead.move rfl fun _ => id
    · exact dead.move (by rw [slept]; rfl) nofun
  | close writable =>
    obtain ⟨-, rfl⟩ := PipeState.close_some taken
    unfold PipeState.pipeclose
    split_ifs
    · refine carries.frame carries.ring.closed rfl id (fun _ => id) (fun q => ?_) fun q r => ?_
      · exact (PipeState.wakeup_roused _ .nread q).call
      · exact (PipeState.wakeup_roused _ .nread q).away
    · refine carries.frame carries.ring.closed rfl (fun _ => rfl) (fun _ => id) (fun q => ?_) fun q r => ?_
      · exact (PipeState.wakeup_roused _ .nwrite q).call
      · exact (PipeState.wakeup_roused _ .nwrite q).away

theorem carries_of_fresh (fresh : s.Fresh) : Carries s Traffic.none := by
  obtain ⟨pipe, -, away⟩ := fresh
  refine ⟨?_, ?_, fun p todo i writing => ?_, nofun, nofun, fun p => List.nil_suffix⟩
  · rw [pipe]
    exact Pipe.opened_sound
  · rw [pipe]
    rfl
  · obtain ⟨r, gone⟩ := away p
    rw [gone] at writing
    contradiction

def pipeRuns : System (PipeState × Traffic) PipeStep := pipeSystem.recorded (fun _ => Traffic.none) Traffic.note

theorem carries_of_reached (reached : pipeRuns.Reachable (s, g)) : Carries s g := by
  refine System.Reachable.invariant (I := fun u : PipeState × Traffic => Carries u.1 u.2) (fun u first => ?_)
    (fun u l u' carries taken => ?_) reached
  · have fresh : Carries u.1 Traffic.none := carries_of_fresh first.1
    exact first.2 ▸ fresh
  · have after : Carries u'.1 (u.2.note u.1 l u'.1) := carries.next taken.1
    exact taken.2 ▸ after

-- In every run, what was put in the ring is what was taken out of it and then what is in it, in order and also
-- when the counters wrap; the ring never holds more than its size. A `pipewrite` under way has put in the first
-- bytes of its source, each once; one that returned has put in all of it, or stopped at a byte that `copyin`
-- refused, or returned -1 because the read end is closed or the process killed.
theorem pipe_is_fifo (reached : pipeRuns.Reachable (s, g)) :
    g.sent.map Prod.snd = g.received.map Prod.snd ++ s.pipe.contents ∧ s.pipe.contents.length ≤ pipeSize ∧
      ∀ p src, g.source p = some src →
        g.latest p <:+ (g.sent.filter fun entry => entry.1 = p).map Prod.snd ∧
          ∃ todo, src = (g.latest p).map some ++ todo ∧
            ∀ r, s.threads p = .away r → s.Ends p todo (g.latest p).length r := by
  have carries := carries_of_reached reached
  refine ⟨carries.flow, ?_, fun p src source => ⟨carries.own p, ?_⟩⟩
  · rw [Pipe.length_contents]
    exact carries.ring.fits
  · cases place : s.threads p with
    | away r =>
      obtain ⟨todo, split, ends⟩ := carries.returned p src r source place
      refine ⟨todo, split, fun r' same => ?_⟩
      obtain rfl := Thread.away.inj same
      exact ends
    | _ c =>
      have calls : (s.threads p).call = some c := by
        rw [place]
        rfl
      obtain ⟨todo, i, rfl⟩ := carries.writing p src c source calls
      obtain ⟨whole, _⟩ := carries.progress p todo i calls
      exact ⟨todo, Option.some.inj (source.symm.trans whole), nofun⟩

def pipeStart : PipeState := ⟨.opened, none, fun _ => .away 0, fun _ => false⟩

-- Two bytes go in, one comes out.
theorem pipe_is_fifo_copied : ∃ (s : PipeState) (g : Traffic), g.sent = [(0, 7), (0, 8)] ∧ g.received = [(1, 7)] ∧
    (g.sent.map Prod.snd = g.received.map Prod.snd ++ s.pipe.contents ∧ s.pipe.contents.length ≤ pipeSize ∧
      ∀ p src, g.source p = some src →
        g.latest p <:+ (g.sent.filter fun entry => entry.1 = p).map Prod.snd ∧
          ∃ todo, src = (g.latest p).map some ++ todo ∧
            ∀ r, s.threads p = .away r → s.Ends p todo (g.latest p).length r) := by
  have fresh : pipeStart.Fresh := ⟨rfl, rfl, fun _ => ⟨0, rfl⟩⟩
  obtain ⟨⟨s, g⟩, executed, moved⟩ := Option.any_eq_true .. |>.mp (show (System.execute
    (fun s l => (PipeState.next s.1 l).map fun t => (t, Traffic.note s.2 s.1 l t)) (fun _ _ => true)
      (pipeStart, Traffic.none) [.write 0 [some 7, some 8], .acquire 0, .turn 0, .read 1 [true], .turn 0, .turn 0,
        .acquire 1, .turn 1, .turn 1, .turn 1]).any (fun u : PipeState × Traffic =>
          decide (u.2.sent = [(0, 7), (0, 8)] ∧ u.2.received = [(1, 7)])) = true by decide +kernel)
  have reached : pipeRuns.Reachable (s, g) := System.execute_recorded (fun _ _ _ => trivial) fresh executed
  obtain ⟨sent, received⟩ := of_decide_eq_true moved
  exact ⟨s, g, sent, received, pipe_is_fifo reached⟩

end SystemsSuite.Files
