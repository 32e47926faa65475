import Nanvix.Lib.Linear
import Nanvix.Mm.Conserve
import Nanvix.Mm.Refine
import Nanvix.Sys.Progress

/-! The cluster: the system call board together with the kernel functions that the master core calls
for it. To the threads of all cores the kernel looks as if their calls were executed one at a time.
With the memory manager behind the board this gives what the threads need of it: a frame that one of
them got is not handed out again before somebody has freed it. -/

namespace Nanvix.Sys

open Nanvix.Lib

variable {K : Type*} {T : Target} {k k₀ : K} {s : State}

/-- What a kernel function that is passed these arguments can answer, and what it does to a part of
the state of the kernel. -/
abbrev Kernel (K : Type*) := K → KernelFn → List Word → ℤ → K → Prop

/-- A step of the board. A dispatch that calls a kernel function takes its answer from there. -/
def clusterSteps (T : Target) (F : Kernel K) : Steps (State × K) Act Out := fun s a o t =>
  steps T s.1 a o t.1 ∧
    match a, o with
    | .master ans, .dispatched _ _ (some (f, args)) _ => F s.2 f args ans t.2
    | _, _ => t.2 = s.2

/-- The cluster runs from the state that `syscall_init` leaves. -/
def ClusterRuns (T : Target) (F : Kernel K) (k₀ : K) (tr : List (Event (State × K) Act Out))
    (s : State × K) : Prop := Run (clusterSteps T F) (boot, k₀) tr s

/-- One call, executed alone: `do_kcall2` between the sweep and the store. -/
def Serve (T : Target) (F : Kernel K) (k : K) (q : Kcall) (ret : ℤ) (k' : K) : Prop :=
  ∃ ans, (dispatch T q ans).2 = ret ∧
    match (dispatch T q ans).1 with
    | none => k' = k
    | some (f, args) => F k f args ans k'

/-! ### The memory manager behind the board -/

/-- The layout of memory, whose frames have numbers that fit in an `int`, and the values of the error
codes. -/
structure Memory extends Mm.Layout where
  errno : Mm.Errno → ℤ
  errno_pos : ∀ e, 0 < errno e
  frame_int : 32 ≤ frameBits
  uframes_int : ubaseFrame + numUframes ≤ 2 ^ 31

namespace Memory

variable (M : Memory)

/-- The result of a kernel function that returns zero or an error. -/
def code : Option Mm.Errno → ℤ
  | none => 0
  | some e => -M.errno e

def coded (r : Option Mm.Errno × Mm.State) : ℤ × Mm.State := (M.code r.1, r.2)

/-- A `frame_t` that is stored in an `int`. -/
@[irreducible]
def frameRet (frame : ℕ) : ℤ := (frame : ℤ).bmod (2 ^ 32)

/-- An argument that is cast to `frame_t`. -/
def frameArg (w : Word) : ℕ := w.toNat % 2 ^ M.frameBits

/-- The kernel functions of the memory manager. -/
def serve (s : Mm.State) : KernelFn → List Word → Option (ℤ × Mm.State)
  | .frameAlloc, [] =>
    let r := Mm.kernelFrameAlloc M.toLayout s
    some (frameRet r.1, r.2)
  | .frameFree, [frame] => some (M.coded (Mm.kernelFrameFree M.toLayout s (M.frameArg frame)))
  | .upageAlloc, [vaddr] => some (M.coded (Mm.kernelUpageAlloc M.toLayout s vaddr.toNat))
  | .upageFree, [vaddr] => some (M.coded (Mm.kernelUpageFree M.toLayout s vaddr.toNat))
  | .upageMap, [vaddr, frame] =>
    some (M.coded (Mm.kernelUpageMap M.toLayout s vaddr.toNat (M.frameArg frame)))
  | .upageLink, [vaddr₁, vaddr₂] =>
    some (M.coded (Mm.kernelUpageLink M.toLayout s vaddr₁.toNat vaddr₂.toNat))
  | .upageUnmap, [vaddr] => some (M.coded (Mm.kernelUpageUnmap M.toLayout s vaddr.toNat))
  | _, _ => none

/-- The kernel as the memory manager sees it. The functions that are not its own leave the bitmap of
frames alone; the creation of a thread takes kernel pages. -/
def kernel : Kernel Mm.State := fun s f args ans s' =>
  match M.serve s f args with
  | some r => ans = r.1 ∧ s' = r.2
  | none => s'.frames = s.frames

/-- The cluster as a program: a dispatch takes a step if `ans` is what the memory manager returns. -/
def step (T : Target) (s : State × Mm.State) (a : Act) : Option (Out × (State × Mm.State)) :=
  let r := Sys.step T s.1 a
  match a, r.1 with
  | .master ans, .dispatched _ _ (some (f, args)) _ =>
    match M.serve s.2 f args with
    | some (ret, m) => if ans = ret then some (r.1, r.2, m) else none
    | none => some (r.1, r.2, s.2)
  | _, _ => some (r.1, r.2, s.2)

theorem steps_of_step {M : Memory} {s t : State × Mm.State} {a : Act} {o : Out} (h : M.step T s a = some (o, t)) :
    clusterSteps T M.kernel s a o t := by
  unfold step at h
  dsimp only at h
  unfold clusterSteps kernel
  split at h <;> rename_i hout
  · split at h <;> rename_i hserve
    · split_ifs at h with hans
      cases h
      simp only [hout, hserve]
      exact ⟨Prod.ext hout rfl, hans, trivial⟩
    · cases h
      simp only [hout, hserve]
      exact ⟨Prod.ext hout rfl, trivial⟩
  · cases h
    refine ⟨rfl, ?_⟩
    dsimp only
    split <;> rename_i hdisp
    · exact absurd hdisp (hout _ _ _ _ _ _ rfl)
    · rfl

/-- The memory of a 32-bit target. -/
def memory32 : Memory where
  toLayout := Mm.layout32
  errno
    | .EINVAL => 22
    | .EFAULT => 14
    | .EADDRINUSE => 112
    | .EAGAIN => 11
    | .EBUSY => 16
    -- the remaining one is `EIO`
    | _ => 5
  errno_pos e := by cases e <;> decide
  frame_int := by decide
  uframes_int := by decide

end Memory

/-! ### Linearizability -/

variable {F : Kernel K} {e : Event (State × K) Act Out} {tr : List (Event (State × K) Act Out)} {u : State × K}
  {c : ℕ} {q : Kcall} {ret : ℤ} {f : KernelFn} {args : List Word}

/-- What a step means for the calls of the threads. -/
def Out.client : Out → Option (ℕ × Rpc.Mark Kcall ℤ)
  | .called c k => some (c, .ask k)
  | .dispatched c k _ ret => some (c, .answer k ret)
  | .returned c k ret _ => some (c, .take k ret)
  | .quiet | .found _ | .defaulted => none

/-- What the threads see of a run: their calls and the returns of these. -/
def callHistory (tr : List (Event (State × K) Act Out)) : List (Linear.Mark ℕ Kcall ℤ) :=
  (tr.filterMap fun e => e.out.client).filterMap Linear.visible

theorem mark_eq_own (o : Out) (c : ℕ) : o.mark c = o.client.bind (Linear.own c) := by
  cases o <;> simp [Out.mark, Out.client, Linear.own]

/-- A dispatch serves the call that it shows. -/
theorem serve_of_dispatched (hs : clusterSteps T F e.pre e.act e.out e.post)
    (hm : e.out.client = some (c, .answer q ret)) : Serve T F e.pre.2 q ret e.post.2 := by
  obtain ⟨⟨s, k⟩, a, o, t, k'⟩ := e
  obtain ⟨hstep, hkernel⟩ := hs
  dsimp only at hstep hkernel hm ⊢
  cases o with
  | dispatched d q' fn ret' =>
    obtain ⟨rfl, rfl, rfl⟩ : d = c ∧ q' = q ∧ ret' = ret := by simpa [Out.client] using hm
    cases moves_of_step hstep with
    | @dispatched ans _ hpc =>
      refine ⟨ans, rfl, ?_⟩
      cases hfn : (dispatch T (s.sysboard d).toKcall ans).1 <;> rw [hfn] at hkernel <;> exact hkernel
  | _ => simp [Out.client] at hm

theorem dispatch_result {ans : ℤ}
    (h : (dispatch T q ans).1 = some (f, args)) (hf : f.keepsResult = true) : (dispatch T q ans).2 = ans := by
  unfold dispatch at h ⊢
  split_ifs at h ⊢ with hnr
  split at h <;> rename_i hhandler
  · cases h
  · simp only [Option.some.injEq, Prod.mk.injEq] at h
    dsimp only
    rw [h.1, if_pos hf]

/-- A kernel function is called with the state of the kernel, and most of them give the result. -/
theorem kernel_of_dispatched (hs : clusterSteps T F e.pre e.act e.out e.post)
    (ho : e.out = .dispatched c q (some (f, args)) ret) :
    ∃ ans, F e.pre.2 f args ans e.post.2 ∧ (f.keepsResult = true → ret = ans) := by
  obtain ⟨⟨s, k⟩, a, o, t, k'⟩ := e
  obtain ⟨hstep, hkernel⟩ := hs
  dsimp only at hstep hkernel ho ⊢
  subst ho
  generalize hfn : some (f, args) = fn at hstep
  cases moves_of_step hstep with
  | @dispatched ans _ hpc => exact ⟨ans, hkernel, fun hf => dispatch_result hfn.symm hf⟩

/-- The kernel is left alone by the steps that call no kernel function. -/
theorem kernel_of_not_called (hs : clusterSteps T F e.pre e.act e.out e.post)
    (hm : ∀ c q f args ret, e.out ≠ .dispatched c q (some (f, args)) ret) : e.post.2 = e.pre.2 := by
  obtain ⟨⟨s, k⟩, a, o, t, k'⟩ := e
  obtain ⟨-, hkernel⟩ := hs
  cases o with
  | dispatched c q fn ret =>
    cases fn with
    | none => cases a <;> exact hkernel
    | some fa => exact absurd rfl (hm c q fa.1 fa.2 ret)
  | _ => cases a <;> exact hkernel

def HasBoard (s : State × K) (b : State) : Prop := s.1 = b

/-- The board of a cluster is one whose kernel functions answer anything. -/
theorem ClusterRuns.board (h : ClusterRuns T F k₀ tr u) :
    ∃ tr' u', Runs T tr' u' ∧ tr'.map (fun e => (e.act, e.out)) = tr.map fun e => (e.act, e.out) := by
  have h₀ : HasBoard (boot, k₀) boot := rfl
  have hstep : ∀ {s a o t b}, clusterSteps T F s a o t → HasBoard s b →
      ∃ b', steps T b a o b' ∧ HasBoard t b' := fun {s a o t b} hs hb => ⟨t.1, hb ▸ hs.1, rfl⟩
  obtain ⟨tr', u', hrun, -, hlabels⟩ := Run.simulates h h₀ hstep
  exact ⟨tr', u', hrun, hlabels⟩

theorem ClusterRuns.books (h : ClusterRuns T F k₀ tr u) (c : ℕ) :
    ∃ x, Rpc.Books ((tr.filterMap fun e => e.out.client).filterMap (Linear.own c)) x := by
  obtain ⟨tr', u', hrun, hlabels⟩ := h.board
  obtain ⟨x, hx⟩ := books_of_runs hrun c
  refine ⟨x, ?_⟩
  have hsame : marks c tr' = (tr.filterMap fun e => e.out.client).filterMap (Linear.own c) := by
    have hboth := congrArg (fun l => l.filterMap fun x : Act × Out => x.2.mark c) hlabels
    simp only [List.filterMap_map] at hboth
    rw [List.filterMap_filterMap, marks]
    refine hboth.trans ?_
    congr 1
    funext e
    exact mark_eq_own e.out c
  rw [← hsame]
  exact hx

/-- Whatever the kernel functions do, the calls of the threads are linearizable: the results are those
of the kernel functions executed one at a time, in an order that respects the calls that returned
before others were made. The state is the one that dispatched calls work on; what a core changes in a
call that it executes itself is not part of it. -/
theorem kcalls_linearizable (h : ClusterRuns T F k₀ tr (s, k)) :
    Linear.Linearizable (Serve T F) k₀ k (callHistory tr) := by
  apply Linear.of_books
  · exact Run.legal (s := (boot, k₀)) (u := (s, k)) Prod.snd (fun e => e.out.client) h
      (fun e hs c q ret hm => serve_of_dispatched hs hm) fun e hs hm =>
        kernel_of_not_called hs fun c q f args ret ho => hm c q ret (by rw [ho]; rfl)
  · intro l r hl c
    obtain ⟨l', r', htr, rfl, -⟩ := List.filterMap_eq_append_iff.mp hl
    unfold ClusterRuns at h
    rw [htr] at h
    obtain ⟨t, hleft, -⟩ := h.split
    exact ClusterRuns.books hleft c

/-- The threads of two cores get a frame each; the one that is served last returns first. -/
def overlapping : List Act :=
  [.call 0 frameAlloc, .call 1 frameAlloc, .core 0, .core 1,
    .master 0, .master 0, .master 0x1000, .master 0, .master 0,
    .master 0, .master 0, .master 0x1001, .master 0, .master 0,
    .core 1, .core 1, .core 0, .core 0]

theorem kcalls_linearizable_overlapping : ∃ tr s k,
    ClusterRuns twoCores Memory.memory32.kernel Mm.blank tr (s, k) ∧
    callHistory tr = [.invoke 0 frameAlloc, .invoke 1 frameAlloc,
      .respond 1 frameAlloc 0x1001, .respond 0 frameAlloc 0x1000] ∧
    Linear.Linearizable (Serve twoCores Memory.memory32.kernel) Mm.blank k (callHistory tr) := by
  obtain ⟨tr, ⟨s, k⟩, hrun, -, hhist⟩ := exists_run_of_exec (f := Memory.memory32.step twoCores)
    (s := (boot, Mm.blank)) overlapping
    (fun r => callHistory r.1 = [.invoke 0 frameAlloc, .invoke 1 frameAlloc,
      .respond 1 frameAlloc 0x1001, .respond 0 frameAlloc 0x1000]) (by decide +kernel)
  have h : ClusterRuns twoCores Memory.memory32.kernel Mm.blank tr (s, k) :=
    hrun.mono fun _ _ _ _ hs => Memory.steps_of_step hs
  exact ⟨tr, s, k, h, hhist, kcalls_linearizable h⟩

/-! ### Frames -/

namespace Memory

variable (M : Memory)

/-- A call is served that hands out a frame: `frame_alloc` returns it, or `upage_alloc` maps it. -/
def HandsOut (e : Event (State × Mm.State) Act Out) (f : ℕ) : Prop :=
  ∃ c q, e.out = .dispatched c q (some (.frameAlloc, [])) f ∨
    ∃ v, e.out = .dispatched c q (some (.upageAlloc, [v])) 0 ∧
      Mm.translate M.toLayout e.post.2 v.toNat = some f

/-- A call is served that frees a frame: `frame_free` of it, or `upage_free` of a page mapped to it. -/
def Frees (e : Event (State × Mm.State) Act Out) (f : ℕ) : Prop :=
  ∃ c q, (∃ a, e.out = .dispatched c q (some (.frameFree, [a])) 0 ∧ M.frameArg a = f) ∨
    ∃ v, e.out = .dispatched c q (some (.upageFree, [v])) 0 ∧
      (Mm.upageUnmap M.toLayout e.pre.2 .root v.toNat).1 = f

variable {M : Memory} {m m' m₀ : Mm.State} {e : Event (State × Mm.State) Act Out} {f : ℕ} {ans : ℤ}

theorem code_eq_zero {r : Option Mm.Errno} (h : M.code r = 0) : r = none := by
  cases r with
  | none => rfl
  | some e =>
    have := M.errno_pos e
    simp only [code] at h
    omega

def Has (M : Memory) (m : Mm.State) (f : ℕ) : Prop := Mm.frameIsAllocated M.toLayout m f = true

theorem Has.congr (h : M.Has m f) (hm : m'.frames = m.frames) : M.Has m' f := by
  rw [Has, Mm.frameIsAllocated_congr hm]
  exact h

/-- Setting a bit leaves the frames allocated that were. -/
theorem Has.set {bit : ℕ} (h : M.Has m f) (hbit : bit < M.numUframes)
    (hm : m'.frames = Function.update m.frames bit true) : M.Has m' f := by
  by_cases hf : f = M.ubaseFrame + bit
  · rw [hf]
    exact Mm.frameIsAllocated_update_self hbit true hm
  · exact (Mm.frameIsAllocated_update hbit true hm hf).trans h

/-- `frame_free` leaves the other frames as they are, and if it fails all of them. -/
theorem Has.frameFree {g : ℕ} (h : M.Has m f) (hne : (Mm.frameFree M.toLayout m g).1 = none → g ≠ f) :
    M.Has (Mm.frameFree M.toLayout m g).2 f := by
  rcases Mm.frameFree_cases M.toLayout m g with ⟨hg, -, hout⟩ | ⟨e, hout, -⟩
  · rw [hout]
    have hid : g = M.ubaseFrame + M.frameNumToId g := (Nat.add_sub_cancel' hg.1).symm
    have hbit : M.frameNumToId g < M.numUframes := by
      have := hg.2
      omega
    have hf : f ≠ M.ubaseFrame + M.frameNumToId g := by
      rw [← hid]
      exact Ne.symm (hne (congrArg Prod.fst hout))
    exact (Mm.frameIsAllocated_update hbit false rfl hf).trans h
  · rw [hout]
    exact h

/-- `upage_free` leaves the frames alone that the page is not mapped to, and if it fails all of them. -/
theorem Has.upageFree (h : M.Has m f) (v : ℕ) (hne : (Mm.upageFree M.toLayout m .root v).1 = none →
      (Mm.upageUnmap M.toLayout m .root v).1 ≠ f) : M.Has (Mm.upageFree M.toLayout m .root v).2 f := by
  have hunmap := h.congr (Mm.upageUnmap_frames M.toLayout m .root v)
  have hfree := fun hne => hunmap.frameFree (g := (Mm.upageUnmap M.toLayout m .root v).1) hne
  unfold Mm.upageFree at hne ⊢
  rw [if_neg (by decide)] at hne ⊢
  dsimp only at hne ⊢
  split_ifs at hne ⊢
  · exact hunmap
  · split at hne <;> rename_i heq
    · rw [heq] at hfree
      exact hfree fun hnone => nomatch hnone
    · rw [heq] at hfree
      exact hfree fun _ => hne rfl

theorem Has.checkUaddr {v : ℕ} {call : Option Mm.Errno × Mm.State} (h : M.Has m f) (hcall : M.Has call.2 f) :
    M.Has (Mm.checkUaddr M.toLayout m v call).2 f := by
  unfold Mm.checkUaddr
  split_ifs
  · exact hcall
  · exact h
  · exact h

/-- A kernel function leaves a frame allocated unless it is one that frees it. -/
theorem Has.kernel {fn : KernelFn} {args : List Word} (h : M.Has m f) (hk : M.kernel m fn args ans m')
    (hfree : ∀ a, fn = .frameFree → args = [a] → ans = 0 → M.frameArg a ≠ f)
    (hupage : ∀ v, fn = .upageFree → args = [v] → ans = 0 →
      (Mm.upageUnmap M.toLayout m .root v.toNat).1 ≠ f) : M.Has m' f := by
  unfold Memory.kernel serve at hk
  split at hk <;> rename_i r hr
  swap
  · exact h.congr hk
  obtain ⟨rfl, rfl⟩ := hk
  split at hr <;> cases hr
  · rw [Mm.kernelFrameAlloc]
    rcases Mm.frameAlloc_cases M.toLayout m with ⟨bit, hbit, -, hout⟩ | ⟨hout, -⟩ <;> rw [hout]
    · exact h.set hbit rfl
    · exact h
  · unfold Mm.kernelFrameFree at hfree ⊢
    split_ifs at hfree ⊢
    · exact h
    · exact h.frameFree fun hnone => hfree _ rfl rfl (congrArg M.code hnone)
  · rename_i v
    refine h.checkUaddr ?_
    rcases Mm.upageAlloc_cases M.toLayout m .root v.toNat with ⟨_, hbit, -, -, _, hout, hmaps⟩ | ⟨e, hout, -⟩ <;>
      rw [hout]
    · exact h.set hbit hmaps.frames
    · exact h
  · unfold Mm.kernelUpageFree Mm.checkUaddr at hupage ⊢
    split_ifs at hupage ⊢
    · exact h.upageFree _ fun hnone => hupage _ rfl rfl (congrArg M.code hnone)
    · exact h
    · exact h
  · rename_i v g
    refine h.checkUaddr ?_
    split_ifs
    · exact h
    · rcases Mm.upageMap_cases M.toLayout m .root v.toNat (M.frameArg g) with ⟨_, hout, -, hmaps⟩ | ⟨e, hout, -⟩ <;>
        rw [hout]
      · exact h.congr hmaps.frames
      · exact h
  · rename_i u v
    refine h.checkUaddr ?_
    rcases Mm.upageLink_cases M.toLayout m u.toNat v.toNat with ⟨_, _, -, -, hout, hmaps⟩ | ⟨e, hout, -⟩ <;>
      rw [hout]
    · exact h.congr hmaps.frames
    · exact h
  · exact h.checkUaddr (h.congr (Mm.upageUnmap_frames M.toLayout m .root _))

/-- The frame of a bit is free before the bit is set and allocated afterwards. -/
theorem fresh_of_bit {bit : ℕ} (hbit : bit < M.numUframes) (hfree : m.frames bit = false)
    (hm : m'.frames = Function.update m.frames bit true) :
    ¬ M.Has m (M.ubaseFrame + bit) ∧ M.Has m' (M.ubaseFrame + bit) := by
  refine ⟨?_, Mm.frameIsAllocated_update_self hbit true hm⟩
  rw [Has, Mm.frameIsAllocated_of_valid (Mm.Layout.valid_ubaseFrame_add (P := M.toLayout) hbit),
    Mm.frameNumToId_ubaseFrame, hfree]
  exact Bool.false_ne_true

theorem frameRet_of_valid {frame : ℕ} (h : M.FrameIsValidNum frame) : frameRet frame = frame := by
  have hint := M.uframes_int
  have hlt := h.2
  unfold frameRet Int.bmod
  dsimp only
  omega

theorem frameRet_frameNull : frameRet M.frameNull = -1 := by
  obtain ⟨k, hk⟩ := Nat.exists_eq_add_of_le M.frame_int
  have hpos := Nat.two_pow_pos k
  unfold frameRet Mm.Layout.frameNull Int.bmod
  rw [hk, pow_add]
  dsimp only
  omega

theorem frameAlloc_fresh (h : (f : ℤ) = frameRet (Mm.kernelFrameAlloc M.toLayout m).1) :
    ¬ M.Has m f ∧ M.Has (Mm.kernelFrameAlloc M.toLayout m).2 f := by
  unfold Mm.kernelFrameAlloc at h ⊢
  rcases Mm.frameAlloc_cases M.toLayout m with ⟨bit, hbit, hfree, halloc⟩ | ⟨halloc, -⟩
  · have hvalid := Mm.Layout.valid_ubaseFrame_add (P := M.toLayout) hbit
    rw [halloc, frameRet_of_valid hvalid] at h
    obtain rfl : f = M.ubaseFrame + bit := by exact_mod_cast h
    rw [halloc]
    exact fresh_of_bit hbit hfree rfl
  · rw [halloc, frameRet_frameNull] at h
    omega

theorem upageAlloc_fresh {v : ℕ} (h : (Mm.kernelUpageAlloc M.toLayout m v).1 = none)
    (htr : Mm.translate M.toLayout (Mm.kernelUpageAlloc M.toLayout m v).2 v = some f) :
    ¬ M.Has m f ∧ M.Has (Mm.kernelUpageAlloc M.toLayout m v).2 f := by
  unfold Mm.kernelUpageAlloc Mm.checkUaddr at h htr ⊢
  split_ifs at h htr ⊢
  rcases Mm.upageAlloc_cases M.toLayout m .root v with
    ⟨bit, hbit, hfree, -, m', halloc, hmaps⟩ | ⟨err, halloc, -⟩
  · have hvalid := Mm.Layout.valid_ubaseFrame_add (P := M.toLayout) hbit
    rw [halloc, hmaps.translate_self, Nat.mod_eq_of_lt (Mm.Layout.valid_lt hvalid)] at htr
    obtain rfl := Option.some.inj htr
    rw [halloc]
    exact fresh_of_bit hbit hfree hmaps.frames
  · rw [halloc] at h
    cases h

/-- A frame that is handed out was free, and is allocated from then on. -/
theorem HandsOut.fresh (hs : clusterSteps T M.kernel e.pre e.act e.out e.post) (h : M.HandsOut e f) :
    ¬ M.Has e.pre.2 f ∧ M.Has e.post.2 f := by
  obtain ⟨c, q, hout | ⟨v, hout, htr⟩⟩ := h
  · obtain ⟨ans, ⟨hans, hpost⟩, hret⟩ := kernel_of_dispatched hs hout
    rw [hpost]
    exact frameAlloc_fresh ((hret rfl).trans hans)
  · obtain ⟨ans, ⟨hans, hpost⟩, hret⟩ := kernel_of_dispatched hs hout
    rw [hpost] at htr ⊢
    exact upageAlloc_fresh (code_eq_zero ((hret rfl).trans hans).symm) htr

theorem Has.step (hs : clusterSteps T M.kernel e.pre e.act e.out e.post) (hfree : ¬ M.Frees e f)
    (h : M.Has e.pre.2 f) : M.Has e.post.2 f := by
  by_cases hout : ∃ c q fn args ret, e.out = .dispatched c q (some (fn, args)) ret
  · obtain ⟨c, q, fn, args, ret, hout⟩ := hout
    obtain ⟨ans, hk, hret⟩ := kernel_of_dispatched hs hout
    refine h.kernel hk (fun a hfn hargs hans heq => hfree ?_) fun v hfn hargs hans heq => hfree ?_
    · subst hfn hargs hans
      rw [hret rfl] at hout
      exact ⟨c, q, .inl ⟨a, hout, heq⟩⟩
    · subst hfn hargs hans
      rw [hret rfl] at hout
      exact ⟨c, q, .inr ⟨v, hout, heq⟩⟩
  · rw [kernel_of_not_called hs fun c q fn args ret heq => hout ⟨c, q, fn, args, ret, heq⟩]
    exact h

/-- No frame is handed out twice, by `frame_alloc` or by `upage_alloc`, to the threads of any cores,
unless a call that frees it has been served in between. -/
theorem frames_exclusive {tr l r n : List (Event (State × Mm.State) Act Out)} {u : State × Mm.State}
    {e₁ e₂ : Event (State × Mm.State) Act Out} (h : ClusterRuns T M.kernel m₀ tr u)
    (htr : tr = l ++ e₁ :: (n ++ e₂ :: r)) (h₁ : M.HandsOut e₁ f) (h₂ : M.HandsOut e₂ f) :
    ∃ e ∈ n, M.Frees e f := by
  by_contra hnone
  push Not at hnone
  unfold ClusterRuns at h
  rw [htr] at h
  obtain ⟨-, hs₁, hrest⟩ := h.at_event
  obtain ⟨hn, hs₂, -⟩ := hrest.at_event
  exact (h₂.fresh hs₂).1 <| hn.invariant (P := fun e => ¬ M.Frees e f) (I := fun s => M.Has s.2 f)
    (h₁.fresh hs₁).2 hnone fun e hs hp hi => Has.step hs hp hi

/-- A thread makes a call and gets its result before anyone else does anything. -/
def alone (c : ℕ) (q : Kcall) (ans : ℤ) : List Act :=
  [.call c q, .core c, .master 0, .master 0, .master ans, .master 0, .master 0, .core c, .core c]

def frameFree (frame : Word) : Kcall := ⟨frame, 0, 0, 0, 0, 45⟩

theorem frames_exclusive_freed : ∃ tr u l e₁ n e₂ r, ClusterRuns twoCores memory32.kernel Mm.blank tr u ∧
    tr = l ++ e₁ :: (n ++ e₂ :: r) ∧ memory32.HandsOut e₁ 0x1000 ∧ memory32.HandsOut e₂ 0x1000 ∧
    ∃ e ∈ n, memory32.Frees e 0x1000 := by
  obtain ⟨tr, u, hrun, -, hout₁, hout₂⟩ := exists_run_of_exec (f := memory32.step twoCores)
    (s := (boot, Mm.blank)) (alone 0 frameAlloc 0x1000 ++ alone 1 (frameFree 0x1000) 0 ++ alone 0 frameAlloc 0x1000)
    (fun r => (r.1[4]?).any (·.out = .dispatched 0 frameAlloc (some (.frameAlloc, [])) 0x1000) ∧
      ((r.1.drop 5)[17]?).any (·.out = .dispatched 0 frameAlloc (some (.frameAlloc, [])) 0x1000))
    (by decide +kernel)
  have h : ClusterRuns twoCores memory32.kernel Mm.blank tr u := hrun.mono fun _ _ _ _ hs => steps_of_step hs
  obtain ⟨e₁, htr, h₁⟩ := exists_event_at 4 hout₁
  obtain ⟨e₂, hrest, h₂⟩ := exists_event_at 17 hout₂
  rw [hrest] at htr
  have hands₁ : memory32.HandsOut e₁ 0x1000 := ⟨0, _, .inl (of_decide_eq_true h₁)⟩
  have hands₂ : memory32.HandsOut e₂ 0x1000 := ⟨0, _, .inl (of_decide_eq_true h₂)⟩
  exact ⟨tr, u, _, e₁, _, e₂, _, h, htr, hands₁, hands₂, frames_exclusive h htr hands₁ hands₂⟩

end Memory

end Nanvix.Sys
