import Nanvix.Sync.Outcome

/-! Reference counts of synchronisation points. A create or open call that returns an entry takes
a reference to it and an unlink or close call gives one back. The counts are right, and a refused
call changes nothing, exactly as long as the hardware does not refuse to release a point: the last
reference is given up before the hardware is asked. -/

namespace Nanvix.Sync

open Nanvix.Lib Function

/-- What a create or open call asks for. -/
structure Request where
  ty : VsyncType
  mode : Mode
  nodes : List ℤ

/-- What a call has come to: a request is answered with an entry, or an entry is given up. -/
inductive Deal where
  | nothing
  | takes (i : ℕ) (q : Request)
  | gives (i : ℕ)

def deal (e : Event State Act Out) : Deal :=
  match e.out.ret with
  | some (.ok v) =>
    match e.act.allocates with
    | some (nodes, mode, ty, _) => .takes v.toNat ⟨ty, mode, nodes⟩
    | none =>
      match e.act.releases with
      | some (i, _, _) => .gives i
      | none => .nothing
  | _ => .nothing

/-- How a call moves the numbers of references since allocation: the call that allocates an entry
starts at one, those that return it again add one, and those that give it up take one away. -/
def references (n : ℕ → ℤ) (e : Event State Act Out) : ℕ → ℤ :=
  match deal e with
  | .nothing => n
  | .takes i _ => Function.update n i (if (e.pre.vsync.tab i).resource.used then n i + 1 else 1)
  | .gives i => Function.update n i (n i - 1)

def referencesOf (tr : List (Event State Act Out)) : ℕ → ℤ := tr.foldl references fun _ => 0

/-- Every entry in use counts its references, and has one. -/
def Counted (n : ℕ → ℤ) (s : State) : Prop :=
  ∀ i, (s.vsync.tab i).resource.used = true → (s.vsync.tab i).refcount = n i ∧ 1 ≤ n i

/-- An entry with the flags of an unused one left open: `resource_alloc` clears them. -/
def Entry.shown (x : Entry) : Entry := if x.resource.used then x else { x with resource := {} }

/-- Nothing has changed in the table and the counters. -/
def SameTable (s t : State) : Prop :=
  (∀ i, (t.vsync.tab i).shown = (s.vsync.tab i).shown) ∧ t.vsync.counters = s.vsync.counters

/-- The hardware does not refuse the release that the call asks for: the call gives up the last
reference to an idle entry of its direction. -/
def HwReleases (e : Event State Act Out) : Prop :=
  ∀ i ty hw, e.act.releases = some (i, ty, hw) → (e.pre.vsync.tab i).resource.used = true →
    (e.pre.vsync.tab i).fits ty = true → (e.pre.vsync.tab i).resource.busy = false →
      (e.pre.vsync.tab i).refcount = 1 → 0 ≤ hw

variable {T : Target} {s t : State} {n : ℕ → ℤ} {a : Act} {i : ℕ} {o : Out}

/-! ### How the numbers move -/

theorem deal_error {err : Nanvix.Noc.Err} (ho : o.ret = some (.error err)) :
    deal ⟨s, a, o, t⟩ = .nothing := by
  simp only [deal, ho]

theorem deal_other (ha : a.allocates = none) (hr : a.releases = none) :
    deal ⟨s, a, o, t⟩ = .nothing := by
  unfold deal
  simp only [ha, hr]
  split <;> rfl

theorem deal_alloc {nodes : List ℤ} {mode : Mode} {ty : VsyncType} {hw : ℤ}
    (ha : a.allocates = some (nodes, mode, ty, hw)) (ho : o.ret = some (.ok (i : ℤ))) :
    deal ⟨s, a, o, t⟩ = .takes i ⟨ty, mode, nodes⟩ := by
  simp only [deal, ho, ha, Int.toNat_natCast]

theorem deal_release {ty : VsyncType} {hw v : ℤ} (hr : a.releases = some (i, ty, hw))
    (ho : o.ret = some (.ok v)) : deal ⟨s, a, o, t⟩ = .gives i := by
  have ha : a.allocates = none := by
    cases a <;> first | rfl | cases hr
  simp only [deal, ho, ha, hr]

theorem takes_of_deal {e : Event State Act Out} {q : Request} (h : deal e = .takes i q) :
    ∃ hw v, e.act.allocates = some (q.nodes, q.mode, q.ty, hw) ∧ e.out.ret = some (.ok v) ∧
      v.toNat = i := by
  unfold deal at h
  split at h
  · rename_i v hok
    split at h
    · rename_i nodes mode ty hw ha
      cases h
      exact ⟨hw, v, ha, hok, rfl⟩
    · split at h <;> cases h
  · cases h

theorem gives_of_deal {e : Event State Act Out} (h : deal e = .gives i) :
    ∃ ty hw v, e.act.releases = some (i, ty, hw) ∧ e.out.ret = some (.ok v) := by
  unfold deal at h
  split at h
  · rename_i v hok
    split at h
    · cases h
    · split at h
      · rename_i j ty hw hr
        cases h
        exact ⟨ty, hw, v, hr, hok⟩
      · cases h
  · cases h

/-- Nothing but the references and the use of an entry matters to `Counted`. -/
theorem Counted.update {x : Entry} {m : ℤ} (h : Counted n s)
    (ht : t.vsync.tab = Function.update s.vsync.tab i x)
    (hx : x.resource.used = true → x.refcount = m ∧ 1 ≤ m) : Counted (Function.update n i m) t := by
  intro j hj
  rw [ht] at hj ⊢
  by_cases hij : j = i
  · subst hij
    rw [update_self] at hj ⊢
    rw [update_self]
    exact hx hj
  · rw [update_of_ne hij] at hj ⊢
    rw [update_of_ne hij]
    exact h j hj

/-- An entry changes, and its count stays right. -/
theorem Counted.keep {x : Entry} (h : Counted n s)
    (ht : t.vsync.tab = Function.update s.vsync.tab i x)
    (hx : x.resource.used = true → (s.vsync.tab i).resource.used = true ∧
      x.refcount = (s.vsync.tab i).refcount) : Counted n t := by
  have hu : Counted (Function.update n i (n i)) t := h.update ht fun hused => by
    obtain ⟨hs, href⟩ := hx hused
    rw [href]
    exact h i hs
  rwa [update_eq_self] at hu

/-- One step keeps the counts right, unless the hardware refuses a release. -/
theorem Counted.step {e : Event State Act Out} (h : Counted n e.pre)
    (hs : steps T e.pre e.act e.out e.post) (hhw : HwReleases e) :
    Counted (references n e) e.post := by
  obtain ⟨s, a, o, t⟩ := e
  dsimp only at h hs
  cases steps_cases hs with
  | quiet _ _ hret =>
    by_cases hcall : a.allocates.isSome ∨ a.releases.isSome
    · obtain ⟨e, he⟩ := hret hcall
      rwa [references, deal_error he]
    · simp only [not_or, Bool.not_eq_true, Option.isSome_eq_false_iff, Option.isNone_iff_eq_none] at hcall
      rwa [references, deal_other hcall.1 hcall.2]
  | @shared _ nodes mode ty hw i hcall hi hsame =>
    have hused : (s.vsync.tab i).resource.used = true := by
      by_contra hno
      simp [Entry.answers, hno] at hsame
    rw [references, deal_alloc (i := i) hcall rfl]
    simp only [hused, if_true]
    refine h.update rfl fun _ => ?_
    have := h i hused
    simp only [Entry.referenced]
    omega
  | withdrawn hcall hi hfree =>
    rw [references, deal_error rfl]
    exact h.keep rfl fun hu => by cases hu
  | @created _ nodes mode ty hw i hcall hi hnone hfree =>
    rw [references, deal_alloc (i := i) hcall rfl]
    simp only [hfree, Bool.false_eq_true, if_false]
    exact h.update rfl fun _ => ⟨rfl, le_rfl⟩
  | @dropped _ i ty hw hcall hused hfits hidle hmore =>
    rw [references, deal_release hcall rfl]
    refine h.update rfl fun _ => ?_
    have := h i hused
    simp only [Entry.unreferenced]
    omega
  | stuck hcall hused hfits hidle hlast hneg =>
    exact absurd (hhw _ _ _ hcall hused hfits hidle hlast) (by omega)
  | freed hcall hused hfits hidle hlast =>
    rw [references, deal_release hcall rfl]
    exact h.update rfl fun hu => by cases hu
  | @marked _ tid i ty hcall hpc hused =>
    have hother : a.allocates = none ∧ a.releases = none := by
      cases a <;> first | exact ⟨rfl, rfl⟩ | cases hcall
    rw [references, deal_other hother.1 hother.2]
    exact h.keep rfl fun hu => ⟨hu, rfl⟩
  | operated => exact h
  | failed => exact h.keep rfl fun hu => ⟨hu, rfl⟩
  | finished => exact h.keep rfl fun hu => ⟨hu, rfl⟩

theorem releases_of_allocates (ha : a.allocates.isSome = true) : a.releases = none := by
  cases a <;> first | rfl | cases ha

theorem used_update {j : ℕ} {x : Entry} (ht : t.vsync.tab = Function.update s.vsync.tab j x)
    (hx : i = j → x.resource.used = (s.vsync.tab j).resource.used) :
    (t.vsync.tab i).resource.used = (s.vsync.tab i).resource.used := by
  rw [ht]
  by_cases hij : i = j
  · subst hij
    rw [update_self, hx rfl]
  · rw [update_of_ne hij]

/-- An entry that goes out of use has lost its last reference. -/
theorem last_of_freed (ho : StepOutcome T s a o t) (hs : (s.vsync.tab i).resource.used = true)
    (ht : (t.vsync.tab i).resource.used = false) :
    (∃ ty hw, a.releases = some (i, ty, hw)) ∧ o.ret = some (.ok 0) ∧ (s.vsync.tab i).refcount = 1 := by
  have hkept : (t.vsync.tab i).resource.used ≠ (s.vsync.tab i).resource.used := by
    rw [hs, ht]
    simp
  have hne : ∀ {j}, (s.vsync.tab j).resource.used = false → i ≠ j := by
    rintro j hj rfl
    rw [hs] at hj
    cases hj
  cases ho with
  | quiet | operated => exact absurd rfl hkept
  | shared | dropped | stuck | marked | failed | finished =>
    exact (hkept (used_update rfl fun _ => rfl)).elim
  | withdrawn _ _ hfree => exact (hkept (used_update rfl fun h => absurd h (hne hfree))).elim
  | created _ _ _ hfree => exact (hkept (used_update rfl fun h => absurd h (hne hfree))).elim
  | @freed _ j ty hw hcall _ _ _ hlast =>
    by_cases hij : i = j
    · subst hij
      exact ⟨⟨ty, hw, hcall⟩, rfl, hlast⟩
    · exact (hkept (used_update rfl fun h => absurd h hij)).elim

/-- A release that succeeds finds its entry in use, and with the last reference frees it. -/
theorem freed_of_last (ho : StepOutcome T s a o t) {ty : VsyncType} {hw v : ℤ}
    (hr : a.releases = some (i, ty, hw)) (hok : o.ret = some (.ok v)) :
    (s.vsync.tab i).resource.used = true ∧
      ((s.vsync.tab i).refcount = 1 → (t.vsync.tab i).resource.used = false) := by
  have hnone : a.allocates.isSome ≠ true := fun ha => by
    rw [releases_of_allocates ha] at hr
    cases hr
  cases ho with
  | quiet _ _ hret =>
    obtain ⟨err, he⟩ := hret (.inr (by rw [hr]; rfl))
    rw [hok] at he
    cases he
  | shared hcall | withdrawn hcall | created hcall => exact absurd (by rw [hcall]; rfl) hnone
  | dropped hcall hused _ _ hmore =>
    rw [hcall] at hr
    cases hr
    exact ⟨hused, fun hlast => absurd hlast hmore⟩
  | stuck | marked => cases hok
  | freed hcall hused =>
    rw [hcall] at hr
    cases hr
    exact ⟨hused, fun _ => by simp [Entry.released]⟩
  | operated | failed | finished => cases hr

/-- A call that is refused leaves the table as it was, unless the hardware refuses a release. -/
theorem same_of_error (ho : StepOutcome T s a o t) (hcall : a.allocates.isSome ∨ a.releases.isSome)
    {err : Nanvix.Noc.Err} (herr : o.ret = some (.error err))
    (hhw : HwReleases ⟨s, a, o, t⟩) : SameTable s t := by
  cases ho with
  | quiet => exact ⟨fun _ => rfl, rfl⟩
  | shared | created | dropped | freed => cases herr
  | @withdrawn _ nodes mode ty hw j hc hj hfree =>
    refine ⟨fun i => ?_, rfl⟩
    by_cases hij : i = j
    · subst hij
      simp [Entry.shown, hfree]
    · simp [update_of_ne hij]
  | stuck hc hused hfits hidle hlast hneg =>
    exact absurd (hhw _ _ _ hc hused hfits hidle hlast) (by omega)
  | marked => cases herr
  | operated => cases herr
  | failed => exact absurd hcall (by simp [Act.allocates, Act.releases])
  | finished => cases herr

/-! ### Runs -/

/-- The reference counts are right in a step that finds `n` references to every entry. -/
structure CountsRight (n : ℕ → ℤ) (e : Event State Act Out) : Prop where
  counted : Counted (references n e) e.post
  /-- An entry is freed exactly by the release that brings its number to zero. -/
  freed : ∀ i, (e.pre.vsync.tab i).resource.used = true →
    ((e.post.vsync.tab i).resource.used = false ↔ deal e = .gives i ∧ references n e i = 0)
  refused : e.act.allocates.isSome ∨ e.act.releases.isSome →
    ∀ err, e.out.ret = some (.error err) → SameTable e.pre e.post

theorem Counted.right {e : Event State Act Out} (h : Counted n e.pre)
    (hs : steps T e.pre e.act e.out e.post) (hhw : HwReleases e) : CountsRight n e where
  counted := h.step hs hhw
  freed i hu := by
    have hn := (h i hu).1
    constructor
    · intro hfree
      obtain ⟨⟨ty, hw, hr⟩, hok, hlast⟩ := last_of_freed (steps_cases hs) hu hfree
      have hd : deal e = .gives i := deal_release hr hok
      refine ⟨hd, ?_⟩
      simp only [references, hd, update_self]
      omega
    · rintro ⟨hd, hzero⟩
      obtain ⟨ty, hw, v, hr, hok⟩ := gives_of_deal hd
      simp only [references, hd, update_self] at hzero
      exact (freed_of_last (steps_cases hs) hr hok).2 (by omega)
  refused hcall err herr := same_of_error (steps_cases hs) hcall herr hhw

/-- The release that the hardware refuses is refused too, but its reference is gone. -/
theorem step_stuck {ty : VsyncType} {hw : ℤ} (hr : a.releases = some (i, ty, hw))
    (hu : (s.vsync.tab i).resource.used = true) (hf : (s.vsync.tab i).fits ty = true)
    (hb : (s.vsync.tab i).resource.busy = false) (hlast : (s.vsync.tab i).refcount = 1) (hneg : hw < 0) :
    step T s a = ({ ret := some (.error (.hw hw)) }, s.setEntry i (s.vsync.tab i).unreferenced) := by
  have hrel : doSyncRelease s.vsync i ty hw =
      (.error (.hw hw), s.vsync.setEntry i (s.vsync.tab i).unreferenced) := by
    simp [doSyncRelease, hu, hf, hb, hneg, Entry.unreferenced, hlast]
  cases a with
  | unlink | close =>
    cases hr
    simp only [step, doVsyncUnlink, doVsyncClose, answer, hrel]
    rfl
  | _ => cases hr

/-- Along every run, with any calls and any answers of the hardware, every entry in use counts the
references taken since it was allocated and has at least one, is freed by the release of the last
one, and a refused call changes nothing, if and only if the hardware refuses no release. -/
theorem vsync_refcounts_iff {tr : List (Event State Act Out)} (h : Runs T tr s) :
    (∀ l e r, tr = l ++ e :: r → CountsRight (referencesOf l) e) ↔ ∀ e ∈ tr, HwReleases e := by
  constructor
  · intro hall e he i ty hw hr hu hf hb hlast
    obtain ⟨l, r, rfl⟩ := List.append_of_mem he
    by_contra hneg
    have hstep := step_stuck (T := T) hr hu hf hb hlast (not_le.mp hneg)
    rw [show step T e.pre e.act = (e.out, e.post) from h.step_of_mem he] at hstep
    obtain ⟨hout, hpost⟩ := Prod.mk.inj hstep
    -- the table that a refused call has to leave alone has lost a reference
    have hsame := ((hall l e r rfl).refused (.inr (by rw [hr]; rfl)) (.hw hw) (by rw [hout])).1 i
    have hrefs := congrArg Entry.refcount hsame
    simp [hpost, Entry.shown, Entry.unreferenced, hu, hlast] at hrefs
  · rintro hhw l e r rfl
    obtain ⟨hl, hs, -⟩ := Run.at_event h
    have hcount : Counted (referencesOf l) e.pre :=
      hl.history references (P := fun _ e => HwReleases e) (J := Counted) (fun i hi => by cases hi)
        (fun l' e' r' htr => hhw e' (by rw [htr]; simp)) fun n e hs hhw hc => hc.step hs hhw
    exact hcount.right hs (hhw e (by simp))

/-- Two callers share a point and both give it up. -/
theorem vsync_refcounts_iff_shared : ∃ tr s, Runs smallTarget tr s ∧
    tr.map (·.act) = [.create [0, 1] .allToOne 9, .create [0, 1] .allToOne 9, .unlink 0 0, .unlink 0 0] ∧
    (∀ e ∈ tr, HwReleases e) ∧ ∀ l e r, tr = l ++ e :: r → CountsRight (referencesOf l) e := by
  have hrun := trail_run (step smallTarget) init
    [.create [0, 1] .allToOne 9, .create [0, 1] .allToOne 9, .unlink 0 0, .unlink 0 0]
  have hhw : ∀ e ∈ trail (step smallTarget) init
      [.create [0, 1] .allToOne 9, .create [0, 1] .allToOne 9, .unlink 0 0, .unlink 0 0], HwReleases e := by
    intro e he
    simp only [trail, List.mem_cons, List.not_mem_nil, or_false] at he
    rcases he with rfl | rfl | rfl | rfl <;> rintro i ty hw ⟨⟩ _ _ _ _ <;> exact le_rfl
  exact ⟨_, _, hrun, rfl, hhw, (vsync_refcounts_iff hrun).mpr hhw⟩

/-- The hardware refuses to release a point: the call fails, and the entry has lost its only
reference. -/
theorem not_vsync_refcounts :
    ¬ ∀ T tr s, Runs T tr s → ∀ l e r, tr = l ++ e :: r → CountsRight (referencesOf l) e := by
  intro h
  have hright := h smallTarget _ _ (trail_run (step smallTarget) init
    [.create [0, 1] .allToOne 9, .unlink 0 (-5)]) [_] _ [] rfl
  exact absurd ((hright.refused (.inr rfl) (.hw (-5)) rfl).1 0) (by decide)

end Nanvix.Sync
