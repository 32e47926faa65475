import Nanvix.Lib.Count
import Nanvix.Sync.Nodes
import Nanvix.Sync.Refcount

/-! The identity of synchronisation points. A point is known by its direction, its mode, its master
and the set of its nodes; the table holds at most one entry for each, and two who hold an entry
hold the same one exactly if they have asked for the same point. The counters tell how many
entries of each direction are in use. -/

namespace Nanvix.Sync

open Nanvix.Lib Function
open Nanvix.Noc (Access)

/-- What `do_sync_search` compares. -/
def Entry.ident (x : Entry) : Access × Option Mode × ℤ × BitVec 64 :=
  (x.resource.access, x.mode, x.master, x.nodeslist)

def Request.ident (q : Request) : Access × Option Mode × ℤ × BitVec 64 :=
  (q.ty.access, some q.mode, q.nodes.headD 0, buildNodeslist q.nodes)

/-- The same direction, mode, first node and set of nodes. -/
def Request.Same (q q' : Request) : Prop :=
  q.ty = q'.ty ∧ q.mode = q'.mode ∧ q.nodes.headD 0 = q'.nodes.headD 0 ∧
    ∀ n, n ∈ q.nodes ↔ n ∈ q'.nodes

def Entry.inUse (ty : VsyncType) (x : Entry) : Bool := x.resource.used && x.fits ty

def Counters.taken (c : Counters) : VsyncType → UInt64
  | .input => c.ncreates
  | .output => c.nopens

def Counters.given (c : Counters) : VsyncType → UInt64
  | .input => c.nunlinks
  | .output => c.ncloses

/-- The table has one entry for a point, and the counters agree with it. -/
structure Registry (T : Target) (s : State) : Prop where
  bounded : ∀ {i}, (s.vsync.tab i).resource.used = true → i < T.size
  unique : ∀ {i j}, (s.vsync.tab i).resource.used = true → (s.vsync.tab j).resource.used = true →
    (s.vsync.tab i).ident = (s.vsync.tab j).ident → i = j
  counters : ∀ ty, s.vsync.counters.taken ty =
    s.vsync.counters.given ty + UInt64.ofNat (tally (Entry.inUse ty) s.vsync.tab T.size)

variable {T : Target} {s t : State} {a : Act} {o : Out} {i : ℕ}

theorem fits_iff (x : Entry) (ty : VsyncType) : x.fits ty = true ↔ x.resource.access = ty.access := by
  cases ty <;> simp [Entry.fits, VsyncType.access, Nanvix.Noc.Resource.isReadable,
    Nanvix.Noc.Resource.isWritable]

theorem access_inj {ty ty' : VsyncType} (h : ty.access = ty'.access) : ty = ty' := by
  cases ty <;> cases ty' <;> first | rfl | cases h

theorem answers_iff {x : Entry} {q : Request} :
    x.answers (q.nodes.headD 0) (buildNodeslist q.nodes) q.mode q.ty = true ↔
      x.resource.used = true ∧ x.ident = q.ident := by
  have hfits := fits_iff x q.ty
  simp only [Entry.ident, Request.ident, Prod.mk.injEq, ← hfits]
  unfold Entry.answers
  split_ifs <;> simp_all

theorem inUse_congr {x y : Entry} (hused : x.resource.used = y.resource.used)
    (hid : x.resource.used = true → x.ident = y.ident) (ty : VsyncType) :
    x.inUse ty = y.inUse ty := by
  unfold Entry.inUse
  rw [← hused]
  cases hu : x.resource.used with
  | false => rfl
  | true =>
    have hacc : x.resource.access = y.resource.access := congrArg (·.1) (hid hu)
    rw [Bool.true_and, Bool.true_and, Bool.eq_iff_iff, fits_iff, fits_iff, hacc]

/-- An entry in use keeps its identity, and a free one stays free. -/
theorem Registry.keep {x : Entry} (h : Registry T s)
    (ht : t.vsync.tab = update s.vsync.tab i x)
    (hused : x.resource.used = (s.vsync.tab i).resource.used)
    (hid : x.resource.used = true → x.ident = (s.vsync.tab i).ident)
    (hc : ∀ ty, t.vsync.counters.taken ty = s.vsync.counters.taken ty ∧
      t.vsync.counters.given ty = s.vsync.counters.given ty) : Registry T t := by
  have hall : ∀ j, (t.vsync.tab j).resource.used = (s.vsync.tab j).resource.used :=
    fun j => used_update ht fun _ => hused
  have hident : ∀ j, (t.vsync.tab j).resource.used = true →
      (t.vsync.tab j).ident = (s.vsync.tab j).ident := by
    intro j hj
    rw [ht] at hj ⊢
    by_cases hji : j = i
    · subst hji
      rw [update_self] at hj ⊢
      exact hid hj
    · rw [update_of_ne hji]
  constructor
  case bounded => exact fun hj => h.bounded (by rwa [← hall])
  case unique =>
    intro j k hj hk hjk
    rw [hident j hj, hident k hk] at hjk
    exact h.unique (by rwa [← hall]) (by rwa [← hall]) hjk
  case counters =>
    intro ty
    rw [(hc ty).1, (hc ty).2, ht, tally_update_same (inUse_congr hused hid ty)]
    exact h.counters ty

theorem fits_eq {x : Entry} {ty : VsyncType} (h : x.fits ty = true) (ty' : VsyncType) :
    x.fits ty' = decide (ty' = ty) := by
  rw [fits_iff] at h
  rw [Bool.eq_iff_iff, fits_iff, h, decide_eq_true_eq]
  exact ⟨fun hacc => (access_inj hacc).symm, fun hty => by rw [hty]⟩

section Counters
variable (c : Counters) (ty ty' : VsyncType)

theorem taken_allocated :
    (c.allocated ty).taken ty' = c.taken ty' + if ty' = ty then 1 else 0 := by
  cases ty <;> cases ty' <;> simp [Counters.allocated, Counters.taken]

theorem given_allocated : (c.allocated ty).given ty' = c.given ty' := by
  cases ty <;> cases ty' <;> rfl

theorem taken_freed : (c.freed ty).taken ty' = c.taken ty' := by
  cases ty <;> cases ty' <;> rfl

theorem given_freed : (c.freed ty).given ty' = c.given ty' + if ty' = ty then 1 else 0 := by
  cases ty <;> cases ty' <;> simp [Counters.freed, Counters.given]

theorem taken_operated : (c.operated ty).taken ty' = c.taken ty' := by
  cases ty <;> cases ty' <;> rfl

theorem given_operated : (c.operated ty).given ty' = c.given ty' := by
  cases ty <;> cases ty' <;> rfl

end Counters

theorem fresh_ident (nodes : List ℤ) (mode : Mode) (ty : VsyncType) (hw : ℤ) :
    (Entry.fresh nodes mode ty hw).ident = (Request.mk ty mode nodes).ident := rfl

/-- A new entry is a point that the table did not have. -/
theorem Registry.created (h : Registry T s) {nodes : List ℤ} {mode : Mode} {ty : VsyncType} {hw : ℤ}
    (hi : i < T.size) (hfree : (s.vsync.tab i).resource.used = false)
    (hnone : ∀ j < T.size,
      (s.vsync.tab j).answers (nodes.headD 0) (buildNodeslist nodes) mode ty = false) :
    Registry T (s.account i (.fresh nodes mode ty hw) (s.vsync.counters.allocated ty)) := by
  have hnew : ∀ j, (s.vsync.tab j).resource.used = true →
      (s.vsync.tab j).ident ≠ (Request.mk ty mode nodes).ident := by
    intro j hj hident
    have hans := answers_iff.mpr ⟨hj, hident⟩
    rw [hnone j (h.bounded hj)] at hans
    cases hans
  constructor
  case bounded =>
    intro j hj
    by_cases hji : j = i
    · rw [hji]
      exact hi
    · rw [State.account_tab, update_of_ne hji] at hj
      exact h.bounded hj
  case unique =>
    intro j k hj hk hjk
    rw [State.account_tab] at hj hk hjk
    by_cases hji : j = i <;> by_cases hki : k = i
    · rw [hji, hki]
    · rw [hji, update_self, update_of_ne hki, fresh_ident] at hjk
      rw [update_of_ne hki] at hk
      exact absurd hjk.symm (hnew k hk)
    · rw [hki, update_self, update_of_ne hji, fresh_ident] at hjk
      rw [update_of_ne hji] at hj
      exact absurd hjk (hnew j hj)
    · rw [update_of_ne hji] at hj hjk
      rw [update_of_ne hki] at hk hjk
      exact h.unique hj hk hjk
  case counters =>
    intro ty'
    have hold : (s.vsync.tab i).inUse ty' = false := by simp [Entry.inUse, hfree]
    have hnew : (Entry.fresh nodes mode ty hw).inUse ty' = decide (ty' = ty) :=
      fits_eq ((fits_iff _ ty).mpr rfl) ty'
    have htally := tally_update (Entry.inUse ty') s.vsync.tab (.fresh nodes mode ty hw) hi
    rw [hold, hnew] at htally
    simp only [Bool.false_eq_true, if_false, Nat.add_zero, decide_eq_true_eq] at htally
    rw [State.account_tab, State.account_counters, htally, taken_allocated, given_allocated,
      h.counters ty']
    split_ifs
    · rw [UInt64.ofNat_add]
      grind
    · grind

theorem Registry.freed (h : Registry T s) {x : Entry} {ty : VsyncType}
    (hused : (s.vsync.tab i).resource.used = true) (hfits : (s.vsync.tab i).fits ty = true)
    (hx : x.resource.used = false) : Registry T (s.account i x (s.vsync.counters.freed ty)) := by
  have hother : ∀ {j}, ((s.account i x (s.vsync.counters.freed ty)).vsync.tab j).resource.used = true →
      (s.account i x (s.vsync.counters.freed ty)).vsync.tab j = s.vsync.tab j := by
    intro j hj
    rw [State.account_tab] at hj ⊢
    by_cases hji : j = i
    · subst hji
      rw [update_self, hx] at hj
      cases hj
    · rw [update_of_ne hji]
  constructor
  case bounded =>
    intro j hj
    have heq := hother hj
    rw [heq] at hj
    exact h.bounded hj
  case unique =>
    intro j k hj hk hjk
    have hej := hother hj
    have hek := hother hk
    rw [hej] at hj hjk
    rw [hek] at hk hjk
    exact h.unique hj hk hjk
  case counters =>
    intro ty'
    have hold : (s.vsync.tab i).inUse ty' = decide (ty' = ty) := by
      rw [Entry.inUse, hused, Bool.true_and, fits_eq hfits]
    have hnew : x.inUse ty' = false := by simp [Entry.inUse, hx]
    have htally := tally_update (Entry.inUse ty') s.vsync.tab x (h.bounded hused)
    rw [hold, hnew] at htally
    simp only [Bool.false_eq_true, if_false, Nat.add_zero, decide_eq_true_eq] at htally
    rw [State.account_tab, State.account_counters, taken_freed, given_freed, h.counters ty', ← htally]
    split_ifs
    · rw [UInt64.ofNat_add]
      grind
    · grind

theorem Registry.step (h : Registry T s) (ho : StepOutcome T s a o t) : Registry T t := by
  cases ho with
  | quiet => exact h
  | operated => exact ⟨h.bounded, h.unique, h.counters⟩
  | shared | dropped | stuck | marked | failed =>
    exact h.keep rfl rfl (fun _ => rfl) fun _ => ⟨rfl, rfl⟩
  | withdrawn _ _ hfree =>
    exact h.keep rfl hfree.symm (fun hu => by cases hu) fun _ => ⟨rfl, rfl⟩
  | created _ hi hnone hfree => exact h.created hi hfree hnone
  | freed _ hused hfits => exact h.freed hused hfits rfl
  | @finished tid i ty =>
    exact h.keep rfl rfl (fun _ => rfl) fun ty' => ⟨taken_operated _ ty ty', given_operated _ ty ty'⟩

theorem registry_init (T : Target) : Registry T init where
  bounded h := by cases h
  unique h := by cases h
  counters ty := by
    have hzero : tally (Entry.inUse ty) init.vsync.tab T.size = 0 := by
      simp [tally, init, Entry.inUse]
    rw [hzero]
    cases ty <;> rfl

/-! ### Who holds an entry -/

/-- How a call moves the requests that hold each entry. -/
def holders (L : ℕ → List Request) (e : Event State Act Out) : ℕ → List Request :=
  match deal e with
  | .nothing => L
  | .takes i q => update L i (q :: L i)
  | .gives i => update L i (L i).tail

/-- The requests that hold each entry after a trace: those that were answered with it and have
not been given up. -/
def holdersOf (tr : List (Event State Act Out)) : ℕ → List Request := tr.foldl holders fun _ => []

/-- A node list that `sync_nodelist_is_valid` has let pass: the local node is the one in a create
of a gather and in an open of a broadcast. -/
def ValidNodes (T : Target) (e : Event State Act Out) : Prop :=
  ∀ nodes mode ty hw, e.act.allocates = some (nodes, mode, ty, hw) →
    nodelistIsValid T nodes (decide ((ty, mode) = (.input, .allToOne) ∨
      (ty, mode) = (.output, .oneToAll))) ≠ 0

/-- The entries count who holds them, and are what these have asked for. -/
structure Held (L : ℕ → List Request) (s : State) : Prop where
  counted : Counted (fun i => (L i).length) s
  used : ∀ {i q}, q ∈ L i → (s.vsync.tab i).resource.used = true
  ident : ∀ {i q}, q ∈ L i → (s.vsync.tab i).ident = q.ident
  fits : ∀ {i q}, q ∈ L i → Fits 64 q.nodes

variable {L : ℕ → List Request}

/-- A call that returns an entry has got one in use that is what it asked for. -/
theorem answered_ident (ho : StepOutcome T s a o t) {nodes : List ℤ} {mode : Mode} {ty : VsyncType}
    {hw v : ℤ} (ha : a.allocates = some (nodes, mode, ty, hw)) (hok : o.ret = some (.ok v)) :
    (t.vsync.tab v.toNat).resource.used = true ∧
      (t.vsync.tab v.toNat).ident = (Request.mk ty mode nodes).ident := by
  have hno : a.releases = none := releases_of_allocates (by rw [ha]; rfl)
  cases ho with
  | quiet _ _ hret =>
    obtain ⟨err, he⟩ := hret (.inl (by rw [ha]; rfl))
    rw [hok] at he
    cases he
  | shared hcall _ hsame =>
    rw [ha] at hcall
    cases hcall
    cases hok
    simpa [Entry.referenced, Entry.ident] using answers_iff (q := ⟨ty, mode, nodes⟩).mp hsame
  | created hcall =>
    rw [ha] at hcall
    cases hcall
    cases hok
    simp [Entry.fresh, Entry.ident, Request.ident]
  | withdrawn | stuck | marked => cases hok
  | dropped hcall | freed hcall =>
    rw [hno] at hcall
    cases hcall
  | operated | failed | finished => cases ha

/-- An entry that is in use before and after a step is the same point. -/
theorem ident_of_step (ho : StepOutcome T s a o t) (hs : (s.vsync.tab i).resource.used = true)
    (ht : (t.vsync.tab i).resource.used = true) : (t.vsync.tab i).ident = (s.vsync.tab i).ident := by
  have hupd : ∀ {j x}, t.vsync.tab = update s.vsync.tab j x →
      (i = j → x.ident = (s.vsync.tab j).ident) → (t.vsync.tab i).ident = (s.vsync.tab i).ident := by
    intro j x htab hx
    rw [htab]
    by_cases hij : i = j
    · subst hij
      rw [update_self, hx rfl]
    · rw [update_of_ne hij]
  have hne : ∀ {j}, (s.vsync.tab j).resource.used = false → i ≠ j := by
    rintro j hj rfl
    rw [hs] at hj
    cases hj
  cases ho with
  | quiet | operated => rfl
  | shared | dropped | stuck | marked | failed | finished => exact hupd rfl fun _ => rfl
  | withdrawn _ _ hfree => exact hupd rfl fun hij => absurd hij (hne hfree)
  | created _ _ _ hfree => exact hupd rfl fun hij => absurd hij (hne hfree)
  | freed =>
    refine hupd rfl fun hij => ?_
    subst hij
    simp [Entry.released] at ht

/-- Who holds an entry has held it before or has just been answered with it. -/
theorem mem_holders {e : Event State Act Out} {q : Request} (h : q ∈ holders L e i) :
    q ∈ L i ∨ deal e = .takes i q := by
  cases hd : deal e with
  | nothing =>
    simp only [holders, hd] at h
    exact .inl h
  | takes j q' =>
    simp only [holders, hd] at h
    by_cases hi : i = j
    · subst hi
      rw [update_self] at h
      rcases List.mem_cons.mp h with rfl | h
      · exact .inr rfl
      · exact .inl h
    · rw [update_of_ne hi] at h
      exact .inl h
  | gives j =>
    simp only [holders, hd] at h
    by_cases hi : i = j
    · subst hi
      rw [update_self] at h
      exact .inl (List.mem_of_mem_tail h)
    · rw [update_of_ne hi] at h
      exact .inl h

/-- The numbers of holders move as the references do. -/
theorem Held.length {e : Event State Act Out} (h : Held L e.pre)
    (hs : steps T e.pre e.act e.out e.post) (i : ℕ) :
    ((holders L e i).length : ℤ) = references (fun i => ((L i).length : ℤ)) e i := by
  cases hd : deal e with
  | nothing => simp only [holders, references, hd]
  | takes j q =>
    simp only [holders, references, hd]
    by_cases hi : i = j
    · subst hi
      rw [update_self, update_self, List.length_cons]
      cases hu : (e.pre.vsync.tab i).resource.used with
      | true => simp
      | false =>
        -- nobody holds a free entry
        have hnil : L i = [] := by
          rw [List.eq_nil_iff_forall_not_mem]
          intro q hq
          rw [h.used hq] at hu
          cases hu
        simp [hnil]
    · rw [update_of_ne hi, update_of_ne hi]
  | gives j =>
    simp only [holders, references, hd]
    by_cases hi : i = j
    · subst hi
      obtain ⟨ty, hw, v, hr, hok⟩ := gives_of_deal hd
      have hpos : (1 : ℤ) ≤ (L i).length :=
        (h.counted i (freed_of_last (steps_cases hs) hr hok).1).2
      rw [update_self, update_self, List.length_tail]
      omega
    · rw [update_of_ne hi, update_of_ne hi]

theorem Held.step {e : Event State Act Out} (h : Held L e.pre) (hT : T.nodesNum ≤ 64)
    (hs : steps T e.pre e.act e.out e.post) (hhw : HwReleases e) (hv : ValidNodes T e) :
    Held (holders L e) e.post := by
  have ho := steps_cases hs
  -- an entry that somebody goes on holding stays in use
  have hstays : ∀ {i q}, q ∈ holders L e i → q ∈ L i → (e.post.vsync.tab i).resource.used = true := by
    intro i q hq hold
    by_contra hno
    obtain ⟨⟨ty, hw, hr⟩, hok, hlast⟩ := last_of_freed ho (h.used hold) (by simpa using hno)
    have hone : (e.pre.vsync.tab i).refcount = (L i).length := (h.counted i (h.used hold)).1
    have hd : deal e = .gives i := deal_release hr hok
    simp only [holders, hd, update_self] at hq
    have htail : (L i).tail.length = 0 := by
      rw [List.length_tail]
      omega
    rw [List.length_eq_zero_iff.mp htail] at hq
    cases hq
  constructor
  case counted =>
    rw [funext (h.length hs)]
    exact h.counted.step hs hhw
  case used =>
    intro i q hq
    rcases mem_holders hq with hold | hd
    · exact hstays hq hold
    · obtain ⟨hw, v, ha, hok, rfl⟩ := takes_of_deal hd
      exact (answered_ident ho ha hok).1
  case ident =>
    intro i q hq
    rcases mem_holders hq with hold | hd
    · rw [ident_of_step ho (h.used hold) (hstays hq hold)]
      exact h.ident hold
    · obtain ⟨hw, v, ha, hok, rfl⟩ := takes_of_deal hd
      exact (answered_ident ho ha hok).2
  case fits =>
    intro i q hq
    rcases mem_holders hq with hold | hd
    · exact h.fits hold
    · obtain ⟨hw, v, ha, hok, rfl⟩ := takes_of_deal hd
      exact fits_of_valid hT (hv _ _ _ _ ha)

theorem held_init : Held (fun _ => []) init where
  counted i hi := by cases hi
  used h := by cases h
  ident h := by cases h
  fits h := by cases h

/-! ### Runs -/

/-- Requests for the same point are told by what the table keeps of them. -/
theorem ident_eq_iff {q q' : Request} (hq : Fits 64 q.nodes) (hq' : Fits 64 q'.nodes) :
    q.ident = q'.ident ↔ q.Same q' := by
  simp only [Request.ident, Prod.mk.injEq, Option.some.injEq, Request.Same, buildNodeslist,
    setBits_eq_iff hq hq']
  exact and_congr_left fun _ => ⟨access_inj, fun h => by rw [h]⟩

/-- In every run of create, open, unlink and close calls, interleaved with waits and signals, whose
node lists are valid and whose releases the hardware does not refuse: no two entries in use are the
same point, two who hold entries hold the same one if and only if they have asked for the same
direction, mode, first node and set of nodes, and the counters tell how many entries of each
direction are in use. -/
theorem vsync_identity {tr : List (Event State Act Out)} (hT : T.nodesNum ≤ 64) (h : Runs T tr s)
    (hvalid : ∀ e ∈ tr, ValidNodes T e) (hhw : ∀ e ∈ tr, HwReleases e) :
    (∀ i j, (s.vsync.tab i).resource.used = true → (s.vsync.tab j).resource.used = true →
      (s.vsync.tab i).ident = (s.vsync.tab j).ident → i = j) ∧
    (∀ i j q q', q ∈ holdersOf tr i → q' ∈ holdersOf tr j → (i = j ↔ q.Same q')) ∧
    s.vsync.counters.ncreates - s.vsync.counters.nunlinks =
      UInt64.ofNat (tally (Entry.inUse .input) s.vsync.tab T.size) ∧
    s.vsync.counters.nopens - s.vsync.counters.ncloses =
      UInt64.ofNat (tally (Entry.inUse .output) s.vsync.tab T.size) := by
  have hreg : Registry T s := h.invariant (P := fun _ => True) (registry_init T) (fun _ _ => trivial)
    fun e hs _ hr => hr.step (steps_cases hs)
  have hheld : Held (holdersOf tr) s :=
    h.history holders (P := fun _ e => HwReleases e ∧ ValidNodes T e) (J := Held) held_init
      (fun l e r htr => ⟨hhw e (by rw [htr]; simp), hvalid e (by rw [htr]; simp)⟩)
      fun L e hs hP hL => hL.step hT hs hP.1 hP.2
  refine ⟨fun i j => hreg.unique, fun i j q q' hq hq' => ?_, ?_, ?_⟩
  · rw [← ident_eq_iff (hheld.fits hq) (hheld.fits hq'), ← hheld.ident hq, ← hheld.ident hq']
    exact ⟨fun hij => by rw [hij], hreg.unique (hheld.used hq) (hheld.used hq')⟩
  · have hc := hreg.counters .input
    simp only [Counters.taken, Counters.given] at hc
    grind
  · have hc := hreg.counters .output
    simp only [Counters.taken, Counters.given] at hc
    grind

/-- Two orders of the same nodes share an entry, another first node does not. -/
theorem vsync_identity_orders :
    let tr := trail (step smallTarget) init [.open [1, 0, 2] .allToOne 9, .open [1, 2, 0] .allToOne 9,
      .open [2, 0, 1] .allToOne 8]
    (holdersOf tr 0).length = 2 ∧ (holdersOf tr 1).length = 1 ∧
      ∀ i j q q', q ∈ holdersOf tr i → q' ∈ holdersOf tr j → (i = j ↔ q.Same q') := by
  refine ⟨rfl, rfl, (vsync_identity (T := smallTarget) (by decide) (trail_run (step smallTarget) init _)
    (fun e he => ?_) fun e he => ?_).2.1⟩
  · simp only [trail, List.mem_cons, List.not_mem_nil, or_false] at he
    rcases he with rfl | rfl | rfl <;> rintro nodes mode ty hw ⟨⟩ <;> decide
  · simp only [trail, List.mem_cons, List.not_mem_nil, or_false] at he
    rcases he with rfl | rfl | rfl <;> rintro i ty hw ⟨⟩

end Nanvix.Sync
