import Mathlib.Data.Int.Notation
import Nanvix.Lib.Trace
import Nanvix.Mm.Area

/-! Signals. A user handler is noted in the table of signals, and `signal_handler` is registered for the
exception with the hardware abstraction layer, which has one slot for each exception. The kernel
registers handlers of its own there as well, and nothing tells whose a handler is: to unregister a
signal for which no user handler was registered takes away the one of the kernel. -/

namespace Nanvix.Pm.Signal

open Nanvix.Lib

/-- What a slot of the hardware abstraction layer holds: `signal_handler`, or a handler of the kernel
such as `do_page_fault`. -/
inductive Handler where
  | signalHandler
  | kernel (k : ℕ)
  deriving DecidableEq, Repr

/-- Error codes; `hal` is what `exception_register` and `exception_unregister` return. -/
inductive Errno where
  | EINVAL | EAGAIN | EFAULT | hal
  deriving DecidableEq, Repr

/-- The table of signals with the user handlers, where `none` is a null pointer, and the slots. -/
structure State where
  signals : ℤ → Option ℕ
  slots : ℤ → Option Handler

/-- A call of `signal_control`, where the action `none` is a null pointer and the handler in it may be
one, or an exception. -/
inductive Act where
  | control (signum : ℤ) (sigact : Option (Option ℕ))
  | raise (signum : ℤ)
  deriving DecidableEq, Repr

/-- What a call returns, and what becomes of an exception: nobody handles it, the kernel does, a user
handler is called, or `signal_handler` does not know any. -/
inductive Out where
  | ret (r : Option Errno)
  | unhandled
  | handled (k : ℕ)
  | upcall (handler : ℕ)
  | kpanic
  deriving DecidableEq, Repr

def exceptionRegister (s : State) (n : ℤ) (h : Handler) : Option Errno × State :=
  match s.slots n with
  | some _ => (some .hal, s)
  | none => (none, { s with slots := Function.update s.slots n (some h) })

def exceptionUnregister (s : State) (n : ℤ) : Option Errno × State :=
  match s.slots n with
  | some _ => (none, { s with slots := Function.update s.slots n none })
  | none => (some .hal, s)

def signalHandler (s : State) (signum : ℤ) : Out :=
  match s.signals signum with
  | none => .kpanic
  | some handler => .upcall handler

/-- An exception goes to the handler in its slot. -/
def raise (s : State) (n : ℤ) : Out :=
  match s.slots n with
  | none => .unhandled
  | some (.kernel k) => .handled k
  | some .signalHandler => signalHandler s n

section Model
variable (mapped : List ℤ)

/-- `signal_control`; `mapped` is `mapped_signals`. -/
def signalControl (s : State) (signum : ℤ) (sigact : Option (Option ℕ)) : Option Errno × State :=
  if signum ∉ mapped then (some .EINVAL, s)
  else
    match sigact with
    | none => (some .EAGAIN, s)
    | some handler =>
      let r :=
        match handler with
        | some _ => if s.signals signum = none then exceptionRegister s signum .signalHandler else (none, s)
        | none => exceptionUnregister s signum
      match r with
      | (some e, s) => (some e, s)
      | (none, s) => (none, { s with signals := Function.update s.signals signum handler })

/-- `kernel_sigctl`, with the address of the action and what is there; `check` is `mm_check_area` on
user memory, and `size` the size of an action. -/
def kernelSigctl (check : ℕ → ℕ → Bool) (size : ℕ) (s : State) (signum : ℤ) (addr : ℕ) (handler : Option ℕ) :
    Option Errno × State :=
  if addr = 0 then (some .EAGAIN, s)
  else if !check addr size then (some .EFAULT, s)
  else if !check (handler.getD 0) 0 then (some .EFAULT, s)
  else signalControl mapped s signum (some handler)

def step (s : State) : Act → Out × State
  | .control signum sigact =>
    let r := signalControl mapped s signum sigact
    (.ret r.1, r.2)
  | .raise signum => (raise s signum, s)

def steps : Steps State Act Out := fun s a o t => step mapped s a = (o, t)

/-- No user handler is there, and the slots are as the kernel has left them. -/
def boot (slots : ℤ → Option Handler) : State := ⟨fun _ => none, slots⟩

def Runs (slots : ℤ → Option Handler) (tr : List (Event State Act Out)) (s : State) : Prop :=
  Run (steps mapped) (boot slots) tr s

/-- The slot of a signal has `signal_handler` while there is a user handler, and what it had at boot
while there is none. -/
def Owned (slots : ℤ → Option Handler) (s : State) : Prop :=
  ∀ n ∈ mapped, (s.slots n = some .signalHandler ↔ s.signals n ≠ none) ∧
    (s.signals n = none → s.slots n = slots n)

/-- A call that unregisters a signal that has no user handler, in whose slot there is a handler. -/
def Strips (e : Event State Act Out) : Prop :=
  ∃ n ∈ mapped, e.act = .control n (some none) ∧ e.pre.signals n = none ∧ e.pre.slots n ≠ none

end Model

/-- Everything a call of `signal_control` can do: it fails, replaces a user handler, registers the
first one, or unregisters what is in the slot. -/
inductive Controls (mapped : List ℤ) (s : State) (n : ℤ) (sigact : Option (Option ℕ)) :
    Option Errno → State → Prop
  | failed (e : Errno) (hno : n ∈ mapped → sigact = some none → s.slots n = none) :
      Controls mapped s n sigact (some e) s
  | replaced {h h' : ℕ} (hn : n ∈ mapped) (hact : sigact = some (some h)) (hs : s.signals n = some h') :
      Controls mapped s n sigact none { s with signals := Function.update s.signals n (some h) }
  | registered {h : ℕ} (hn : n ∈ mapped) (hact : sigact = some (some h)) (hs : s.signals n = none)
      (hslot : s.slots n = none) :
      Controls mapped s n sigact none
        { signals := Function.update s.signals n (some h)
          slots := Function.update s.slots n (some .signalHandler) }
  | unregistered (hn : n ∈ mapped) (hact : sigact = some none) (hslot : s.slots n ≠ none) :
      Controls mapped s n sigact none
        { signals := Function.update s.signals n none, slots := Function.update s.slots n none }

variable {mapped : List ℤ} {slots : ℤ → Option Handler} {s t : State} {n : ℤ}

theorem signalControl_cases {sigact : Option (Option ℕ)} {r : Option Errno}
    (h : signalControl mapped s n sigact = (r, t)) : Controls mapped s n sigact r t := by
  unfold signalControl at h
  split at h
  · rename_i hno
    cases h
    exact .failed .EINVAL fun hn => absurd hn hno
  rename_i hn
  rw [not_not] at hn
  cases sigact with
  | none =>
    cases h
    exact .failed .EAGAIN fun _ hact => by cases hact
  | some handler =>
    cases handler with
    | none =>
      dsimp only at h
      unfold exceptionUnregister at h
      cases hslot : s.slots n with
      | none =>
        rw [hslot] at h
        cases h
        exact .failed .hal fun _ _ => hslot
      | some x =>
        rw [hslot] at h
        cases h
        exact .unregistered hn rfl (by simp [hslot])
    | some handler =>
      dsimp only at h
      cases hs : s.signals n with
      | some h' =>
        rw [hs, if_neg (by simp)] at h
        cases h
        exact .replaced hn rfl hs
      | none =>
        rw [hs, if_pos rfl] at h
        unfold exceptionRegister at h
        cases hslot : s.slots n with
        | some x =>
          rw [hslot] at h
          cases h
          exact .failed .hal fun _ hact => by cases hact
        | none =>
          rw [hslot] at h
          cases h
          exact .registered hn rfl hs hslot

theorem steps_control {sigact : Option (Option ℕ)} {o : Out} (hs : steps mapped s (.control n sigact) o t) :
    ∃ r, o = .ret r ∧ Controls mapped s n sigact r t := by
  obtain ⟨rfl, rfl⟩ := Prod.mk.inj hs
  exact ⟨_, rfl, signalControl_cases rfl⟩

theorem steps_raise {o : Out} (hs : steps mapped s (.raise n) o t) : o = raise s n ∧ t = s := by
  obtain ⟨rfl, rfl⟩ := Prod.mk.inj hs
  exact ⟨rfl, rfl⟩

/-- With the handlers in their places, a signal with a user handler had an empty slot at boot. -/
structure Kept (mapped : List ℤ) (slots : ℤ → Option Handler) (s : State) : Prop where
  owned : Owned mapped slots s
  vacant : ∀ n ∈ mapped, s.signals n ≠ none → slots n = none

theorem kept_boot (hB : ∀ n ∈ mapped, slots n ≠ some .signalHandler) : Kept mapped slots (boot slots) :=
  ⟨fun n hn => ⟨iff_of_false (hB n hn) (by simp [boot]), fun _ => rfl⟩, fun n _ hs => absurd rfl hs⟩

/-- Only one signal changes, and what it gets belongs together. -/
theorem Kept.update (h : Kept mapped slots s) (handler : Option ℕ) (slot : Option Handler)
    (hown : (slot = some .signalHandler ↔ handler ≠ none) ∧ (handler = none → slot = slots n))
    (hvacant : handler ≠ none → slots n = none) :
    Kept mapped slots
      { signals := Function.update s.signals n handler, slots := Function.update s.slots n slot } := by
  constructor
  · intro m hm
    by_cases hmn : m = n
    · subst hmn
      simpa using hown
    · simpa [hmn] using h.owned m hm
  · intro m hm hs
    by_cases hmn : m = n
    · subst hmn
      exact hvacant (by simpa using hs)
    · exact h.vacant m hm (by simpa [hmn] using hs)

theorem Kept.control {sigact : Option (Option ℕ)} {r : Option Errno} (h : Kept mapped slots s)
    (hc : Controls mapped s n sigact r t)
    (hno : n ∈ mapped → sigact = some none → s.signals n = none → s.slots n = none) :
    Kept mapped slots t := by
  cases hc with
  | failed => exact h
  | @replaced handler old hn hact hs =>
    have hold : s.signals n ≠ none := by simp [hs]
    have hslot := (h.owned n hn).1.mpr hold
    -- the slot stays as it is
    have hkept := h.update (n := n) (some handler) (s.slots n) (by simp [hslot]) fun _ => h.vacant n hn hold
    rwa [Function.update_eq_self] at hkept
  | @registered handler hn hact hs hslot =>
    refine h.update (some handler) (some .signalHandler) (by simp) fun _ => ?_
    rw [← (h.owned n hn).2 hs, hslot]
  | unregistered hn hact hslot =>
    have hold : s.signals n ≠ none := fun hs => hslot (hno hn hact hs)
    exact h.update none none (by simp [h.vacant n hn hold]) (by simp)

theorem Kept.step {a : Act} {o : Out} (h : Kept mapped slots s) (hs : steps mapped s a o t)
    (hno : ¬ Strips mapped ⟨s, a, o, t⟩) : Kept mapped slots t := by
  cases a with
  | control n sigact =>
    obtain ⟨r, -, hc⟩ := steps_control hs
    refine h.control hc fun hn hact hsig => ?_
    by_contra hslot
    exact hno ⟨n, hn, by rw [hact], hsig, hslot⟩
  | raise n =>
    obtain ⟨-, rfl⟩ := steps_raise hs
    exact h

/-- Whoever registered it, what is in the slot of a signal can be taken away. -/
theorem signalControl_unregisters (hn : n ∈ mapped) (hslot : s.slots n ≠ none) :
    signalControl mapped s n (some none) =
      (none, { signals := Function.update s.signals n none, slots := Function.update s.slots n none }) := by
  obtain ⟨handler, hh⟩ := Option.ne_none_iff_exists'.mp hslot
  simp [signalControl, exceptionUnregister, hn, hh]

theorem eq_of_ret_some {a : Act} {o : Out} {e : Errno} (hs : steps mapped s a o t)
    (ho : o = .ret (some e)) : t = s := by
  cases a with
  | raise n => exact (steps_raise hs).2
  | control n sigact =>
    obtain ⟨r, rfl, hc⟩ := steps_control hs
    cases hc with
    | failed => rfl
    | replaced | registered | unregistered => cases ho

/-- `signal_handler` is registered for exceptions with a user handler only. -/
def Answered (s : State) : Prop := ∀ n, s.slots n = some .signalHandler → s.signals n ≠ none

theorem Answered.step {a : Act} {o : Out} (h : Answered s) (hs : steps mapped s a o t) : Answered t := by
  cases a with
  | raise n =>
    obtain ⟨-, rfl⟩ := steps_raise hs
    exact h
  | control n sigact =>
    obtain ⟨r, -, hc⟩ := steps_control hs
    intro m hm
    cases hc with
    | failed => exact h m hm
    | replaced hn =>
      by_cases hmn : m = n
      · simp [hmn]
      · simpa [hmn] using h m hm
    | registered =>
      by_cases hmn : m = n
      · simp [hmn]
      · simpa [hmn] using h m (by simpa [hmn] using hm)
    | unregistered =>
      by_cases hmn : m = n
      · simp [hmn] at hm
      · simpa [hmn] using h m (by simpa [hmn] using hm)

/-- Between the calls, no exception finds `signal_handler` without a user handler to call. -/
theorem raise_ne_kpanic (hB : ∀ n, slots n ≠ some .signalHandler) {tr : List (Event State Act Out)}
    (h : Runs mapped slots tr s) (n : ℤ) : raise s n ≠ .kpanic := by
  have ha : Answered s := Run.invariant h (P := fun _ => True) (fun m hm => absurd hm (hB m))
    (fun _ _ => trivial) fun _ hs _ hi => hi.step hs
  unfold raise signalHandler
  split
  · simp
  · simp
  · rename_i hslot
    cases hsig : s.signals n with
    | none => exact absurd hsig (ha n hslot)
    | some handler => simp

/-- A run keeps the slots, so that after each of its calls a signal has `signal_handler` in its slot
while it has a user handler and what was there at boot while it has none, exactly if no call unregisters
a signal that has no user handler while its slot is taken. A call that fails changes nothing. -/
theorem signals_owned_iff (hB : ∀ n ∈ mapped, slots n ≠ some .signalHandler)
    {tr : List (Event State Act Out)} (h : Runs mapped slots tr s) :
    ((∀ e ∈ tr, Owned mapped slots e.post) ↔ ∀ e ∈ tr, ¬ Strips mapped e) ∧
      ∀ e ∈ tr, ∀ err, e.out = .ret (some err) → e.post = e.pre := by
  refine ⟨⟨fun hall e he hst => ?_, fun hno e he => ?_⟩, fun e he err => ?_⟩
  · obtain ⟨n, hn, hact, hsig, hslot⟩ := hst
    have hpre : Owned mapped slots e.pre := by
      obtain ⟨l, r, rfl⟩ := List.append_of_mem he
      rcases (Run.at_event h).1.eq_or_exists_post with heq | ⟨x, hx, heq⟩
      · rw [heq]
        exact (kept_boot hB).owned
      · rw [← heq]
        exact hall x (by simp [hx])
    -- the slot had what it had at boot, and now it has nothing
    have hs := Run.step_of_mem h he
    rw [hact] at hs
    have hpost : e.post = { signals := Function.update e.pre.signals n none
                            slots := Function.update e.pre.slots n none } := by
      rw [← (Prod.mk.inj hs).2, signalControl_unregisters hn hslot]
    have hboot := (hall e he n hn).2 (by simp [hpost])
    rw [(hpre n hn).2 hsig, ← hboot, hpost] at hslot
    simp at hslot
  · have hI := Run.invariant_of_mem h (I := Kept mapped slots) (kept_boot hB) hno
      (fun _ hs hn hi => hi.step hs hn) he
    exact hI.2.owned
  · exact eq_of_ret_some (Run.step_of_mem h he)

/-- An invalid opcode and a page fault; the kernel has `do_page_fault` for the second. -/
def pageFaults (n : ℤ) : Option Handler := if n = 14 then some (.kernel 0) else none

/-- A user registers two handlers for invalid opcodes one after the other and takes the second away, and
is refused for page faults. -/
theorem signals_owned_opcode : ∃ tr s, Runs [6, 14] pageFaults tr s ∧
    tr.map (·.out) = [.ret none, .ret none, .upcall 2, .ret none, .ret (some .hal), .handled 0] ∧
    ∀ e ∈ tr, Owned [6, 14] pageFaults e.post := by
  have hrun := trail_run (step [6, 14]) (boot pageFaults)
    [.control 6 (some (some 1)), .control 6 (some (some 2)), .raise 6, .control 6 (some none),
      .control 14 (some (some 3)), .raise 14]
  refine ⟨_, _, hrun, by decide, (signals_owned_iff (by decide) hrun).1.mpr ?_⟩
  simp [trail, step, Strips, boot, signalControl, exceptionRegister, exceptionUnregister, pageFaults]

/-- The first call unregisters page faults, which no user has registered. It returns zero, and page
faults are not handled any more. The second call gives them to the user. -/
theorem not_signals_owned : ∃ tr s, Runs [6, 14] pageFaults tr s ∧
    tr.map (·.act) = [.control 14 (some none), .raise 14, .control 14 (some (some 3)), .raise 14] ∧
    tr.map (·.out) = [.ret none, .unhandled, .ret none, .upcall 3] ∧
    (∃ e ∈ tr, e.post.signals 14 = none ∧ e.post.slots 14 = none) ∧
    ¬ ∀ e ∈ tr, Owned [6, 14] pageFaults e.post := by
  have hrun := trail_run (step [6, 14]) (boot pageFaults)
    [.control 14 (some none), .raise 14, .control 14 (some (some 3)), .raise 14]
  refine ⟨_, _, hrun, by decide, by decide, ⟨_, List.mem_cons_self, by decide, by decide⟩, fun h => ?_⟩
  have h14 := (h _ List.mem_cons_self 14 (by decide)).2 (by decide)
  exact absurd h14 (by decide)

/-- The system call refuses a null handler where the check of user memory refuses the address zero, so
that users cannot strip a slot there. -/
theorem kernelSigctl_owned {check : ℕ → ℕ → Bool} (hcheck : check 0 0 = false) (size : ℕ)
    (hB : ∀ n ∈ mapped, slots n ≠ some .signalHandler) (calls : List (ℤ × ℕ × Option ℕ)) :
    Owned mapped slots
      (calls.foldl (fun s c => (kernelSigctl mapped check size s c.1 c.2.1 c.2.2).2) (boot slots)) := by
  refine (List.foldlRecOn (motive := Kept mapped slots) calls _ (kept_boot hB) fun s hs c _ => ?_).owned
  obtain ⟨n, addr, handler⟩ := c
  dsimp only
  unfold kernelSigctl
  split
  · exact hs
  split
  · exact hs
  split
  · exact hs
  · rename_i hhandler
    have hc : Controls mapped s n (some handler) (signalControl mapped s n (some handler)).1
        (signalControl mapped s n (some handler)).2 := signalControl_cases rfl
    refine hs.control hc fun _ hact => ?_
    cases hact
    simp [hcheck] at hhandler

/-- The x86 target is one, since user memory does not start at the address zero. -/
theorem kernelSigctl_x86_owned (L : Mm.AddressSpace) (hL : 0 < L.ubaseVirt) (size : ℕ)
    (hB : ∀ n ∈ mapped, slots n ≠ some .signalHandler) (calls : List (ℤ × ℕ × Option ℕ)) :
    Owned mapped slots (calls.foldl (fun s c => (kernelSigctl mapped
      (fun vaddr size => Mm.mmCheckArea .qemuX86 L vaddr size .umem) size s c.1 c.2.1 c.2.2).2) (boot slots)) := by
  refine kernelSigctl_owned ?_ size hB calls
  rw [← Bool.not_eq_true, Mm.mmCheckArea_iff (by decide), Mm.isUaddr_iff]
  omega

/-- Where the check admits every area, a user takes the handler of the kernel away from any signal that
has one. -/
theorem kernelSigctl_other_strips (L : Mm.AddressSpace) (size : ℕ) {addr : ℕ} (haddr : addr ≠ 0)
    (hn : n ∈ mapped) (hslot : s.slots n ≠ none) :
    let r := kernelSigctl mapped (fun vaddr size => Mm.mmCheckArea .other L vaddr size .umem) size s n addr none
    r.1 = none ∧ r.2.slots n = none := by
  simp [kernelSigctl, haddr, Mm.mmCheckArea, signalControl_unregisters hn hslot]

end Nanvix.Pm.Signal
