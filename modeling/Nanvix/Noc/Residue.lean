import Nanvix.Noc.Accounting
import Nanvix.Noc.Messages
import Nanvix.Noc.Payload

/-! What is left in an mbuffer. Neither taking nor giving back an mbuffer clears more
than the header and the first byte of its message, so behind the bytes of a message stand
those of earlier ones. A reader that asks for no more than was put into the mbuffer gets a
part of the message addressed to it; one that asks for more gets the rest from messages
that were not for it. -/

namespace Nanvix.Noc

open Nanvix.Lib Function

variable (F : Facility)

/-- The entry that a step copies a message from, if it copies one, and the number of bytes
that the reader asks for. -/
def source (s : State) : Act → Option (ℕ × ℕ)
  | .master _ =>
    match s.master, s.doComm with
    | .operating _ c, .input =>
      let cfg := (s.comms c).config
      let P := readPool F cfg.remoteAddr
      (mbufferSearch F P cfg.localAddr cfg.remoteAddr s.phys).map fun i => (P.base F + i, cfg.size)
    | _, _ => none
  | .resume tid _ =>
    match s.waits tid with
    | .woken c fd i _ =>
      (mbufferGet F (s.phys.ports (portOf F fd)).mbufferpool i).map fun k => (k, (s.comms c).config.size)
    | _ => none
  | _ => none

/-- The bytes that were put into each mbuffer last: a write puts those of its user into the
mbuffer it takes, the hardware a whole message into the one it was lent. -/
def putBytes (g : ℕ → List UInt8) (e : Event State Act Out) : ℕ → List UInt8 := fun k =>
  match e.act with
  | .master env =>
    match e.pre.master, e.pre.doComm with
    | .operating _ c, .output =>
      if !(e.pre.phys.mbuffers k).resource.used && (e.post.phys.mbuffers k).resource.used then
        readMem env.mem (e.pre.comms c).config.buffer (e.pre.comms c).config.size
      else g k
    | _, _ => g k
  | .resume tid env =>
    match e.pre.waits tid, e.post.waits tid with
    | .blocked _ fd _, .woken _ _ _ _ =>
      if e.pre.phys.lent (portOf F fd).1 = some k ∧
          (e.pre.phys.actives (portOf F fd).1).resource.isReadable = true ∧ env.hwRet = 0 then
        env.arrived.data
      else g k
    | _, _ => g k
  | _ => g k

/-- The bytes put into each mbuffer during a run. -/
def contents (tr : List (Event State Act Out)) : ℕ → List UInt8 := tr.foldl (putBytes F) fun _ => []

/-- An mbuffer that holds a message has the bytes put into it in front. -/
def Carried (g : ℕ → List UInt8) (s : State) : Prop :=
  ∀ k, (s.phys.mbuffers k).message.header.dest = -1 ∨ g k <+: (s.phys.mbuffers k).message.data

variable {F} {g : ℕ → List UInt8} {e : Event State Act Out}

/-- A step that keeps the mbuffers and lets nobody come back from the hardware. -/
theorem Carried.of_quiet (h : Carried g e.pre)
    (hmb : e.post.phys.mbuffers = e.pre.phys.mbuffers)
    (hwaits : ∀ tid env c fd i, e.act = .resume tid env → e.pre.waits tid = .blocked c fd i →
      e.post.waits tid = .blocked c fd i) : Carried (putBytes F g e) e.post := by
  have hput : putBytes F g e = g := by
    funext k
    unfold putBytes
    split
    · split
      · rw [hmb]
        simp
      · rfl
    · rename_i tid env hact
      split
      · rename_i c fd i c' fd' i' ret hpre hpost
        rw [hwaits tid env c fd i hact hpre] at hpost
        cases hpost
      · rfl
    · rfl
  rw [hput, Carried, hmb]
  exact h

/-- A step that puts nothing into the mbuffers and clears some of them. -/
theorem Carried.of_cleared (h : Carried g e.pre) (hput : putBytes F g e = g)
    (hmsg : ∀ k, (e.post.phys.mbuffers k).message = (e.pre.phys.mbuffers k).message ∨
      (e.post.phys.mbuffers k).message.header = {}) : Carried (putBytes F g e) e.post := by
  rw [hput]
  intro k
  rcases hmsg k with hsame | hclear
  · rw [hsame]
    exact h k
  · exact .inl (by rw [hclear])

theorem Carried.operate {c : ℕ} {env : Env} {ty : CommType} {ans : Answer}
    (h : Carried g e.pre) (hact : e.act = .master env) (hpc : e.pre.master = .operating ty c)
    (ho : CommOutcome F e.pre (e.pre.comms c).config env e.pre.doComm ans e.post.phys) :
    Carried (putBytes F g e) e.post := by
  generalize hty : e.pre.doComm = ty' at ho
  cases ho with
  | aread hv ho =>
    refine h.of_cleared ?_ fun k => (ho.message k).imp_right And.right
    funext k
    simp only [putBytes, hact, hpc, hty]
  | awrite hv ho =>
    intro k
    simp only [putBytes, hact, hpc, hty]
    rcases ho.message k with ⟨hsame, hused⟩ | ⟨hfree, htaken, hfront⟩
    · rw [hused, hsame]
      simpa using h k
    · rw [hfree, htaken]
      exact .inr hfront

theorem Carried.step (h : Carried g e.pre) (hs : steps F e.pre e.act e.out e.post) :
    Carried (putBytes F g e) e.post := by
  obtain ⟨s, act, o, t⟩ := e
  dsimp only at h hs ⊢
  cases steps_cases hs with
  | quiet => exact h.of_quiet rfl fun _ _ _ _ _ _ hb => hb
  | opened hidle hcall hlocal hport hrem ho =>
    cases ho
    exact h.of_quiet rfl fun _ _ _ _ _ ha _ => by cases ha
  | rolledBack env hpc hv ho =>
    cases ho
    exact h.of_quiet rfl fun _ _ _ _ _ ha _ => by cases ha
  | freed hidle hcall hid hused hfits hbusy hv ho =>
    cases ho
    exact h.of_quiet rfl fun _ _ _ _ _ ha _ => by cases ha
  | allocated | exhausted | counted | granted | noted | remoteSet | allowed | denied | checked
    | collected => exact h.of_quiet rfl fun _ _ _ _ _ ha _ => by cases ha
  | failed hpc hu hfits hbusy ho hret => exact h.operate rfl hpc ho
  | operated hpc hu hfits hbusy ho hret => exact h.operate rfl hpc ho
  | rejected env hpc | entered env hpc | left env hpc | succeeded env hpc | reset env hpc =>
    refine h.of_quiet rfl fun _ _ _ _ _ ha hb => ?_
    cases ha
    rw [hpc] at hb
    cases hb
  | @woken tid c fd i env hpc =>
    intro k
    simp only [putBytes, hpc, State.setWait_waits, update_self]
    change (((hwWait s.phys (portOf F fd).1 env).mbuffers k).message.header.dest = -1 ∨ _ <+:
      ((hwWait s.phys (portOf F fd).1 env).mbuffers k).message.data)
    rw [hwWait_message]
    split_ifs
    · exact .inr (List.prefix_refl _)
    · exact h k
  | completed env hpc hget ho =>
    refine h.of_cleared ?_ fun k => (ho.message k).imp_right And.right
    funext k
    simp only [putBytes, hpc]

theorem carried_run {s u : State} {tr : List (Event State Act Out)} (h₀ : Init F s)
    (h : Run (steps F) s tr u) : Carried (contents F tr) u := by
  refine h.history (putBytes F) (P := fun _ _ => True) ?_ (fun _ _ _ _ => trivial)
    fun g e hs _ hc => hc.step hs
  intro k
  obtain ⟨ph, hb, rfl⟩ := h₀
  obtain ⟨hwfd, c, rfl⟩ := hb.eq_bootState
  exact .inl rfl

/-! ### Readers -/

def Located (s : State) : Prop :=
  ∀ tid c, (s.waits tid).comm = some c → 0 ≤ (s.comms c).config.localAddr

variable {s t u : State} {act : Act} {o : Out} {c : ℕ}

theorem Accounts.localAddr_nonneg (h : Accounts F s) (hu : (s.comms c).resource.used = true) :
    0 ≤ (s.comms c).config.localAddr := by
  obtain ⟨-, ty, a, p, -, -, hloc⟩ := h.comm c hu
  rw [hloc]
  exact compose_nonneg F F.node p

/-- An address changes only when the communicator is given out. -/
theorem localAddr_of_step (h : Accounts F t) (hs : steps F s act o t) (c : ℕ) :
    (t.comms c).config.localAddr = (s.comms c).config.localAddr ∨
      0 ≤ (t.comms c).config.localAddr := by
  cases steps_cases hs with
  | @allocated ty cfg id env hpc hid hfree =>
    by_cases hc : c = id
    · subst hc
      exact .inr (h.localAddr_nonneg (by simp [Communicator.fresh]))
    · exact .inl (by simp [update_of_ne hc])
  | @freed call id | @granted id | @noted call id | @remoteSet id | @allowed id | @operated ty id
    | @collected tid id | @completed tid id | @left tid id | @succeeded tid id =>
    left
    by_cases hc : c = id <;> simp [hc, State.note, Communicator.operated, Communicator.released,
      Communicator.succeeded]
  | @reset tid id env hpc cfg hcfg =>
    left
    by_cases hc : c = id
    · subst hc
      rcases hcfg with rfl | ⟨-, rfl⟩ <;> simp
    · simp [update_of_ne hc]
  | _ => exact .inl rfl

/-- A thread that is at a communicator was there before or has found it in use. -/
theorem waiting_of_step (hs : steps F s act o t) {tid : ℕ} (hc : (t.waits tid).comm = some c) :
    (s.waits tid).comm = some c ∨ (s.comms c).resource.used = true := by
  by_cases ht : act.thread = some tid
  · cases steps_cases hs with
    | quiet => exact .inl hc
    | checked hpc hid hused hbusy hfin =>
      obtain rfl := Option.some.inj ht
      obtain rfl : _ = c := by simpa [WaitPc.comm] using hc
      exact .inr hused
    | collected hpc hid hused hbusy hfin hans hnext =>
      obtain rfl := Option.some.inj ht
      rcases hnext with rfl | rfl
      · simp [WaitPc.comm] at hc
      · obtain rfl : _ = c := by simpa [WaitPc.comm] using hc
        exact .inr hused
    | rejected env hpc | entered env hpc | woken env hpc | completed env hpc =>
      obtain rfl := Option.some.inj ht
      rw [hpc]
      exact .inl (by simpa [WaitPc.comm] using hc)
    | left env hpc | reset env hpc =>
      obtain rfl := Option.some.inj ht
      simp [WaitPc.comm] at hc
    | succeeded env hpc hans hnext =>
      obtain rfl := Option.some.inj ht
      rw [hpc]
      rcases hnext with rfl | rfl
      · simp [WaitPc.comm] at hc
      · exact .inl (by simpa [WaitPc.comm] using hc)
    | _ => cases ht
  · rw [waits_of_step hs tid ht] at hc
    exact .inl hc

theorem Located.step (h : Located s) (hacc : Accounts F s) (hs : steps F s act o t) : Located t := by
  intro tid c hc
  rcases localAddr_of_step (hacc.step hs) hs c with hsame | hnonneg
  · rw [hsame]
    rcases waiting_of_step hs hc with hwas | hused
    · exact h tid c hwas
    · exact hacc.localAddr_nonneg hused
  · exact hnonneg

theorem located_run {tr : List (Event State Act Out)} (h₀ : Init F s) (h : Run (steps F) s tr u) :
    Located u ∧ Accounts F u := by
  refine h.invariant (P := fun _ => True) (I := fun s => Located s ∧ Accounts F s)
    ⟨?_, accounts_init h₀⟩ (fun _ _ => trivial) fun e hs _ hi => ⟨hi.1.step hi.2 hs, hi.2.step hs⟩
  obtain ⟨ph, -, rfl⟩ := h₀
  intro tid c hc
  cases hc

/-- What a step copies to a user comes from a message that is addressed to the reader. -/
theorem copied_of_step (h : Located s) (hacc : Accounts F s) (hs : steps F s act o t) {ans : Answer}
    {b : ℕ} {bytes : List UInt8} (hans : o.ans = some ans) (hcopy : ans.copied = some (b, bytes)) :
    ∃ k n, source F s act = some (k, n) ∧ k < F.mbufferMax ∧
      (s.phys.mbuffers k).message.header.dest ≠ -1 ∧
      bytes = (s.phys.mbuffers k).message.data.take n := by
  have hop : ∀ {c env ty ph}, s.master = .operating ty c → (s.comms c).resource.used = true →
      CommOutcome F s (s.comms c).config env s.doComm ans ph →
      ∃ k n, source F s (.master env) = some (k, n) ∧ k < F.mbufferMax ∧
        (s.phys.mbuffers k).message.header.dest ≠ -1 ∧
        bytes = (s.phys.mbuffers k).message.data.take n := by
    intro c env ty ph hpc hused ho
    generalize hty : s.doComm = ty' at ho
    cases ho with
    | aread hv ho =>
      cases ho with
      | stored i hport hfound hclear =>
        obtain ⟨hi, hc, -⟩ := mbufferSearch_some hfound
        simp only [candidate, Bool.and_eq_true, beq_iff_eq] at hc
        have hloc := hacc.localAddr_nonneg hused
        refine ⟨_, (s.comms c).config.size, ?_, Pool.index_lt _ hi, by rw [hc.1.2]; omega, ?_⟩
        · simp only [source, hpc, hty, hfound, Option.map_some]
        · simp only [storedAnswer, Option.some.injEq, Prod.mk.injEq] at hcopy
          exact hcopy.2.symm
      | refused | exhausted | failed | submitted => cases hcopy
    | awrite hv ho =>
      cases ho with
      | refused | starved | forwarded => cases hcopy
      | fresh k _ _ _ _ _ hsub => cases hsub <;> cases hcopy
      | retried k _ _ _ hsub => cases hsub <;> cases hcopy
  cases steps_cases hs with
  | failed hpc hused hfits hbusy ho hret =>
    cases hans
    exact hop hpc hused ho
  | operated hpc hused hfits hbusy ho hret =>
    cases hans
    exact hop hpc hused ho
  | @completed tid c k fd i ret ans' ph env hpc hget ho =>
    cases hans
    cases ho with
    | consumed hret hread hcheck l l' =>
      simp only [headerCheck, Bool.and_eq_true, beq_iff_eq] at hcheck
      have hloc := h tid c (by rw [hpc]; rfl)
      refine ⟨k, (s.comms c).config.size, ?_, mbufferGet_lt hget, by rw [hcheck.1]; omega, ?_⟩
      · simp only [source, hpc, hget, Option.map_some]
      · simp only [Option.some.injEq, Prod.mk.injEq] at hcopy
        exact hcopy.2.symm
    | failed | ignored | written | plain => cases hcopy
  | quiet _ _ hnone | collected _ _ _ _ _ hnone | left _ _ _ hnone | succeeded _ _ hnone =>
    rw [hans] at hnone
    cases hnone
  | _ => cases hans

/-! ### Two runs -/

/-- What an event copies to a user, and where to. -/
def copied (e : Event State Act Out) : Option (ℕ × List UInt8) := e.out.ans.bind (·.copied)

theorem copied_eq_some {x : ℕ × List UInt8} (h : copied e = some x) :
    ∃ ans, e.out.ans = some ans ∧ ans.copied = some x := Option.bind_eq_some_iff.mp h

theorem source_blank (s : State) (act : Act) : source F s.blank act.blank = source F s act := by
  cases act <;> rfl

/-- Whether something is copied, and where to, does not depend on payloads. -/
theorem copied_blank (e : Event State Act Out) :
    (copied e).map (fun c => (c.1, ([] : List UInt8))) = e.out.blank.ans.bind (·.copied) := by
  unfold copied Out.blank
  cases e.out.ans <;> rfl

/-- The reader of a message that fits gets a part of what was put into the mbuffer. -/
theorem copied_eq_contents {s₀ : State} {l : List (Event State Act Out)} (h₀ : Init F s₀)
    (hrun : Run (steps F) s₀ l e.pre) (hs : steps F e.pre e.act e.out e.post) {b : ℕ}
    {bytes : List UInt8} (hcopy : copied e = some (b, bytes))
    (hsize : ∀ k n, source F e.pre e.act = some (k, n) → n ≤ (contents F l k).length) :
    ∃ k n, source F e.pre e.act = some (k, n) ∧ k < F.mbufferMax ∧
      (e.pre.phys.mbuffers k).message.header.dest ≠ -1 ∧ bytes = (contents F l k).take n := by
  obtain ⟨ans, hans, hc⟩ := copied_eq_some hcopy
  obtain ⟨hloc, hacc⟩ := located_run h₀ hrun
  obtain ⟨k, n, hsrc, hk, hdest, rfl⟩ := copied_of_step hloc hacc hs hans hc
  obtain ⟨rest, hdata⟩ := (carried_run h₀ hrun k).resolve_left hdest
  refine ⟨k, n, hsrc, hk, hdest, ?_⟩
  rw [← hdata, List.take_append_of_le_length (hsize k n hsrc)]

/-- Two runs of the same calls that agree on the messages that are neither consumed nor
discarded let a reader see the same bytes, if it asks for no more of them than were put
into the mbuffer that it reads. -/
theorem reader_sees_own_message {s₀ u₁ u₂ : State} {l₁ l₂ : List (Event State Act Out)}
    {e₁ e₂ : Event State Act Out} (h₀ : Init F s₀) (h₁ : Run (steps F) s₀ (l₁ ++ [e₁]) u₁)
    (h₂ : Run (steps F) s₀ (l₂ ++ [e₂]) u₂)
    (hcalls : (l₁ ++ [e₁]).map (fun e => e.act.blank) = (l₂ ++ [e₂]).map (fun e => e.act.blank))
    (hlive : ∀ k < F.mbufferMax, (e₁.pre.phys.mbuffers k).message.header.dest ≠ -1 →
      contents F l₁ k = contents F l₂ k)
    (hsize : ∀ k n, source F e₁.pre e₁.act = some (k, n) → n ≤ (contents F l₁ k).length) :
    copied e₁ = copied e₂ := by
  obtain ⟨hrun₁, hs₁, -⟩ := h₁.at_event
  obtain ⟨hrun₂, hs₂, -⟩ := h₂.at_event
  rw [List.map_append, List.map_append] at hcalls
  obtain ⟨hacts, hact⟩ := List.append_inj' hcalls rfl
  replace hact : e₁.act.blank = e₂.act.blank := (List.cons.inj hact).1
  have hpre : e₁.pre.blank = e₂.pre.blank := run_blank hrun₁ hrun₂ hacts
  have hsrc : source F e₂.pre e₂.act = source F e₁.pre e₁.act := by
    rw [← source_blank e₁.pre, hpre, hact, source_blank]
  have hwhere := copied_blank e₁
  rw [(steps_blank hs₁ hs₂ hpre hact).1, ← copied_blank] at hwhere
  rcases hc₁ : copied e₁ with _ | ⟨b₁, bytes₁⟩ <;> rcases hc₂ : copied e₂ with _ | ⟨b₂, bytes₂⟩ <;>
    rw [hc₁, hc₂] at hwhere
  · cases hwhere
  · cases hwhere
  · obtain rfl : b₁ = b₂ := by simpa using hwhere
    obtain ⟨k, n, hk₁, hlt, hdest, rfl⟩ := copied_eq_contents h₀ hrun₁ hs₁ hc₁ hsize
    have hsame := hlive k hlt hdest
    obtain ⟨k', n', hk₂, -, -, rfl⟩ := copied_eq_contents h₀ hrun₂ hs₂ hc₂ (by
      rw [hsrc, hk₁]
      rintro k n hkn
      cases hkn
      rw [← hsame]
      exact hsize _ _ hk₁)
    rw [hsrc, hk₁] at hk₂
    cases hk₂
    rw [hsame]

/-- A message of four bytes goes through an mbuffer, then one of a single byte, and a reader
asks for `size` bytes of it. -/
def recycled (mem : ℕ → UInt8) (size : ℕ) : List Act :=
  wholeOpen (.create 0 0) ++ wholeOpen (.open 0 0 0) ++
    [.call (.awrite 1 64 4), .master { mem := mem }, .wait 0 1, .resume 0 {},
      .call (.aread 0 64 4), .master {}, .master {}, .wait 0 0, .resume 0 {},
      .call (.awrite 1 64 1), .master { mem := fun _ => 5 }, .call (.aread 0 64 size), .master {}]

/-- The event reads the second message, and its single byte is all that entry 16 was filled
with; the others have not been used. -/
def SecondRead (bytes : List UInt8) (l : List (Event State Act Out)) (e : Event State Act Out) : Prop :=
  copied e = some (64, bytes) ∧
    ∀ k < quadMailbox.mbufferMax, contents quadMailbox l k = if k = 16 then [5] else []

instance (bytes : List UInt8) (l : List (Event State Act Out)) (e : Event State Act Out) :
    Decidable (SecondRead bytes l e) := inferInstanceAs (Decidable (_ ∧ _))

theorem map_blank {l : List (Event State Act Out)} {as : List Act} (hl : l.map (·.act) = as) {a : Act}
    (he : e.act = a) : (l ++ [e]).map (fun e => e.act.blank) = (as ++ [a]).map Act.blank := by
  rw [← hl, ← he]
  simp

theorem reader_sees_own_message_short : ∃ s₀ l₁ e₁ u₁ l₂ e₂ u₂, Init quadMailbox s₀ ∧
    Run (steps quadMailbox) s₀ (l₁ ++ [e₁]) u₁ ∧ Run (steps quadMailbox) s₀ (l₂ ++ [e₂]) u₂ ∧
    contents quadMailbox l₁ 16 = [5] ∧ source quadMailbox e₁.pre e₁.act = some (16, 1) ∧
    copied e₁ = some (64, [5]) ∧ copied e₁ = copied e₂ := by
  obtain ⟨l₁, e₁, u₁, hrun₁, hacts₁, hact₁, ⟨hcopy, hput₁⟩, hsrc⟩ := exists_last_of_exec
    (F := quadMailbox) (s := initState quadBoot) (recycled UInt8.ofNat 1) (.master {})
    (fun l e => SecondRead [5] l e ∧ source quadMailbox e.pre e.act = some (16, 1)) (by decide +kernel)
  obtain ⟨l₂, e₂, u₂, hrun₂, hacts₂, hact₂, -, hput₂⟩ := exists_last_of_exec (F := quadMailbox)
    (s := initState quadBoot) (recycled (fun _ => 9) 1) (.master {}) (SecondRead [5]) (by decide +kernel)
  have hinit := initState_init quadBoot_boot
  refine ⟨_, l₁, e₁, u₁, l₂, e₂, u₂, hinit, hrun₁, hrun₂, hput₁ 16 (by decide), hsrc, hcopy, ?_⟩
  apply reader_sees_own_message hinit hrun₁ hrun₂
  · rw [map_blank hacts₁ hact₁, map_blank hacts₂ hact₂]
    rfl
  · intro k hk _
    rw [hput₁ k hk, hput₂ k hk]
  · intro k n hkn
    rw [hsrc] at hkn
    cases hkn
    rw [hput₁ 16 (by decide)]
    decide

/-- A reader that asks for four bytes of the second message gets three of the first one. -/
theorem residue_reaches_reader : ∃ s₀ l₁ e₁ u₁ l₂ e₂ u₂, Init quadMailbox s₀ ∧
    Run (steps quadMailbox) s₀ (l₁ ++ [e₁]) u₁ ∧ Run (steps quadMailbox) s₀ (l₂ ++ [e₂]) u₂ ∧
    (l₁ ++ [e₁]).map (fun e => e.act.blank) = (l₂ ++ [e₂]).map (fun e => e.act.blank) ∧
    (∀ k < quadMailbox.mbufferMax, (e₁.pre.phys.mbuffers k).message.header.dest ≠ -1 →
      contents quadMailbox l₁ k = contents quadMailbox l₂ k) ∧
    copied e₁ = some (64, [5, 65, 66, 67]) ∧ copied e₂ = some (64, [5, 9, 9, 9]) ∧
    copied e₁ ≠ copied e₂ := by
  obtain ⟨l₁, e₁, u₁, hrun₁, hacts₁, hact₁, hcopy₁, hput₁⟩ := exists_last_of_exec (F := quadMailbox)
    (s := initState quadBoot) (recycled UInt8.ofNat 4) (.master {}) (SecondRead [5, 65, 66, 67])
    (by decide +kernel)
  obtain ⟨l₂, e₂, u₂, hrun₂, hacts₂, hact₂, hcopy₂, hput₂⟩ := exists_last_of_exec (F := quadMailbox)
    (s := initState quadBoot) (recycled (fun _ => 9) 4) (.master {}) (SecondRead [5, 9, 9, 9])
    (by decide +kernel)
  refine ⟨_, l₁, e₁, u₁, l₂, e₂, u₂, initState_init quadBoot_boot, hrun₁, hrun₂, ?_, ?_, hcopy₁, hcopy₂,
    ?_⟩
  · rw [map_blank hacts₁ hact₁, map_blank hacts₂ hact₂]
    rfl
  · intro k hk _
    rw [hput₁ k hk, hput₂ k hk]
  · rw [hcopy₁, hcopy₂]
    decide

end Nanvix.Noc
