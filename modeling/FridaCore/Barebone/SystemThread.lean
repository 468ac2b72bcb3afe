import FridaCore.Support.Machine

/-!
# The life of a system thread

`thread_wrapper` of `gthread.rs` against one call of `_g_system_thread_detach` or
`_g_system_thread_wait`, one atomic operation a step. The mutex that decides who frees the
`SystemThreadImpl` is a part of it.
-/

namespace FridaCore.Barebone

/-- `lock` is the exchange and `lockWait` the loop of `lock_wait`. `unlock` and `done` have what
was found in `detached`. -/
inductive WrapperPc
  | storeId
  | run
  | lock
  | lockWait
  | storeFinished
  | signal
  | loadDetached
  | unlock (detached : Bool)
  | free
  | done (detached : Bool)
  deriving DecidableEq, Fintype

/-- The places of a caller, those of `detach` with a `d` and those of `wait` with a `w`. -/
inductive CallerPc
  | idle
  | dLock
  | dLockWait
  | dStore
  | dLoad
  | dUnlock (finished : Bool)
  | dFree
  | dDone (finished : Bool)
  | wSpin
  | wLock
  | wLockWait
  | wCheck
  | wCondUnlock
  | wCondWait
  | wUnlock
  | wFree
  | wDone
  deriving DecidableEq, Fintype

/-- `returned` is set when the thread function is back, and `touched` when the object is used
after it has been freed. -/
structure SystemThread where
  wrapper : WrapperPc
  caller : CallerPc
  threadId : Bool
  mutex : Bool
  cond : Bool
  finished : Bool
  detached : Bool
  returned : Bool
  freed : Nat
  touched : Bool
  deriving DecidableEq

inductive SystemThreadEvent
  | detach
  | wait
  | wrapper (fails : Bool)
  | caller (fails : Bool)
  deriving DecidableEq, Fintype

namespace SystemThread

def touch (s : SystemThread) : SystemThread := { s with touched := s.touched || 0 < s.freed }

def wrapperStep (s : SystemThread) (fails : Bool) : SystemThread :=
  match s.wrapper with
  | .storeId => { s.touch with threadId := true, wrapper := .run }
  | .run => { s with returned := true, wrapper := .lock }
  | .lock =>
    if s.mutex ∨ fails then { s.touch with wrapper := .lockWait }
    else { s.touch with mutex := true, wrapper := .storeFinished }
  | .lockWait => if s.mutex then s.touch else { s.touch with wrapper := .lock }
  | .storeFinished => { s.touch with finished := true, wrapper := .signal }
  | .signal => { s.touch with cond := true, wrapper := .loadDetached }
  | .loadDetached => { s.touch with wrapper := .unlock s.detached }
  | .unlock detached =>
    { s.touch with mutex := false, wrapper := if detached then .free else .done false }
  | .free => { s with freed := s.freed + 1, wrapper := .done true }
  | .done _ => s

def callerStep (s : SystemThread) (fails : Bool) : SystemThread :=
  match s.caller with
  | .dLock =>
    if s.mutex ∨ fails then { s.touch with caller := .dLockWait }
    else { s.touch with mutex := true, caller := .dStore }
  | .dLockWait => if s.mutex then s.touch else { s.touch with caller := .dLock }
  | .dStore => { s.touch with detached := true, caller := .dLoad }
  | .dLoad => { s.touch with caller := .dUnlock s.finished }
  | .dUnlock finished =>
    { s.touch with mutex := false, caller := if finished then .dFree else .dDone false }
  | .dFree => { s with freed := s.freed + 1, caller := .dDone true }
  | .wSpin => if s.threadId then { s.touch with caller := .wLock } else s.touch
  | .wLock =>
    if s.mutex ∨ fails then { s.touch with caller := .wLockWait }
    else { s.touch with mutex := true, caller := .wCheck }
  | .wLockWait => if s.mutex then s.touch else { s.touch with caller := .wLock }
  | .wCheck => { s.touch with caller := if s.finished then .wUnlock else .wCondUnlock }
  | .wCondUnlock => { s.touch with mutex := false, caller := .wCondWait }
  | .wCondWait => if s.cond then { s.touch with caller := .wLock } else s.touch
  | .wUnlock => { s.touch with mutex := false, caller := .wFree }
  | .wFree => { s with freed := s.freed + 1, caller := .wDone }
  | .idle | .dDone _ | .wDone => s

def step (s : SystemThread) : SystemThreadEvent → Option SystemThread
  | .detach => if s.caller = .idle then some { s with caller := .dLock } else none
  | .wait => if s.caller = .idle then some { s with caller := .wSpin } else none
  | .wrapper fails => some (s.wrapperStep fails)
  | .caller fails => some (s.callerStep fails)

def Inside (w : WrapperPc) : Bool :=
  w = .storeFinished || w = .signal || w = .loadDetached || w = .unlock false || w = .unlock true

def rank : WrapperPc → Nat
  | .storeId => 0
  | .run => 1
  | .lock | .lockWait => 2
  | .storeFinished => 3
  | .signal => 4
  | .loadDetached => 5
  | .unlock _ => 6
  | .free | .done _ => 7

def Detaching : CallerPc → Bool
  | .dLoad | .dUnlock _ | .dFree | .dDone _ => true
  | _ => false

def CallerInside : CallerPc → Bool
  | .dStore | .dLoad | .dUnlock _ | .wCheck | .wCondUnlock | .wUnlock => true
  | _ => false

/-- The caller has found the thread finished. -/
def Late : CallerPc → Bool
  | .dUnlock true | .dFree | .dDone true | .wUnlock | .wFree | .wDone => true
  | _ => false

/-- Everything in the object follows from where the two sides are. -/
def stateAt (w : WrapperPc) (c : CallerPc) : SystemThread where
  wrapper := w
  caller := c
  threadId := 0 < rank w
  returned := 1 < rank w
  finished := 3 < rank w
  cond := 4 < rank w
  detached := Detaching c
  mutex := Inside w || CallerInside c
  freed := (if w = .done true then 1 else 0) + if c = .dDone true ∨ c = .wDone then 1 else 0
  touched := false

/-- The pairs of places that go together. The one that comes second into the mutex knows of
the other, and the first does not know of it. -/
def Together (w : WrapperPc) (c : CallerPc) : Prop :=
  ¬(Inside w ∧ CallerInside c) ∧ (Late c → w = .done false) ∧
    (w = .unlock true ∨ w = .free ∨ w = .done true → c = .dDone false) ∧
    (c = .dUnlock false → rank w < 3) ∧ (c = .dDone false → w ≠ .unlock false ∧ w ≠ .done false)

instance (w : WrapperPc) (c : CallerPc) : Decidable (Together w c) := by
  unfold Together
  infer_instance

def Done (s : SystemThread) : Prop :=
  (∃ b, s.wrapper = .done b) ∧ ((∃ b, s.caller = .dDone b) ∨ s.caller = .wDone)

/-- The object is freed at most once, not used afterwards, not freed by `wait` before the
function is back, and freed when both sides are through. -/
structure Sound (s : SystemThread) : Prop where
  freed : s.freed ≤ 1
  touched : s.touched = false
  waited : s.caller = .wFree → s.returned
  done : Done s → s.freed = 1

theorem together_step : ∀ w c e, Together w c → ∀ t, step (stateAt w c) e = some t →
    t = stateAt t.wrapper t.caller ∧ Together t.wrapper t.caller := by
  decide +kernel

theorem sound_stateAt : ∀ w c, Together w c → (stateAt w c).freed ≤ 1 ∧
    (c = .wFree → (stateAt w c).returned) ∧
    ∀ b, w = .done b → (∃ b, c = .dDone b) ∨ c = .wDone → (stateAt w c).freed = 1 := by
  decide +kernel

/-- Both sides in turn, with a call if there was none. -/
def finish (c : CallerPc) : List SystemThreadEvent :=
  (if c = .idle then [.wait] else []) ++
    (List.replicate 20 [.wrapper false, .caller false]).flatten

theorem finish_done : ∀ w c, Together w c → ∃ t ∈ Machine.exec step (stateAt w c) (finish c),
    (∃ b, t.wrapper = .done b) ∧ ((∃ b, t.caller = .dDone b) ∨ t.caller = .wDone) ∧
      t.freed = 1 := by
  decide +kernel

/-- `_g_system_thread_create` has returned, and the thread has not begun. -/
def created : SystemThread := stateAt .storeId .idle

/-- In every run each state is sound, and both sides can come to their end from it, with the
object freed. -/
theorem lifetime (es : List SystemThreadEvent) :
    Machine.Always step (fun s => Sound s ∧
      ∃ es' t, Machine.exec step s es' = some t ∧ Done t ∧ t.freed = 1) created es := by
  have hall : Machine.Always step (fun s => s = stateAt s.wrapper s.caller ∧
      Together s.wrapper s.caller) created es := by
    refine Machine.always_of_step (fun s e t hs ht => ?_) ⟨rfl, by decide⟩
    rw [hs.1] at ht
    exact together_step _ _ e hs.2 t ht
  refine hall.mono fun s hs => ?_
  obtain ⟨hfreed, hwaited, hdone⟩ := sound_stateAt _ _ hs.2
  obtain ⟨t, ht, hw, hc, hend⟩ := finish_done _ _ hs.2
  rw [← hs.1] at hfreed hwaited hdone ht
  have htouched : s.touched = false := by rw [hs.1]; rfl
  refine ⟨⟨hfreed, htouched, hwaited, ?_⟩, _, t, ht, ⟨hw, hc⟩, hend⟩
  rintro ⟨⟨b, hb⟩, hcaller⟩
  exact hdone b hb hcaller

end SystemThread

end FridaCore.Barebone
