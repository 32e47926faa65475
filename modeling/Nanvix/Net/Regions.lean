import Nanvix.Net.MemFree

/-! What the heap is for. Its clients own regions of memory, each with some bytes in it. A region that is
given to a client meets none of the other ones, and its bytes change only when its owner writes them.
The heap does this as long as the clients keep to their own regions. -/

namespace Nanvix.Net

open Nanvix.Lib Blocks Function

/-- The bytes of the regions that are owned, by where they begin. -/
abbrev Regions := ℕ → Option (List UInt8)

namespace Regions

/-- The `n` bytes from `p` on lie in the heap, and none of the regions meets them. -/
structure Fresh (live : Regions) (H : Heap) (p n : ℕ) : Prop where
  new : live p = none
  inside : p + n ≤ H.ramEnd
  aligned : H.alignment ∣ p
  apart : ∀ q cs, live q = some cs → q + cs.length ≤ p ∨ p + n ≤ q

/-- The bytes `bs` are written at the position `i`. -/
def splice (cs : List UInt8) (i : ℕ) (bs : List UInt8) : List UInt8 :=
  cs.take i ++ bs ++ cs.drop (i + bs.length)

open Mem in
inductive Step (H : Heap) (live : Regions) : Act → Out → Regions → Prop
  | malloc {n : UInt16} {p : ℕ} {cs : List UInt8} (hlen : cs.length = n.toNat) (hnew : live.Fresh H p n.toNat) :
    Step H live (.malloc n) (.ptr (some p)) (Function.update live p (some cs))
  | noMalloc {n : UInt16} : Step H live (.malloc n) (.ptr none) live
  | calloc {count size : UInt16} {p : ℕ} (hnew : live.Fresh H p (count.toNat * size.toNat)) :
    Step H live (.calloc count size) (.ptr (some p))
      (Function.update live p (some (List.replicate (count.toNat * size.toNat) 0)))
  | noCalloc {count size : UInt16} : Step H live (.calloc count size) (.ptr none) live
  | freeNull : Step H live (.free none) .done live
  | free {p : ℕ} {cs : List UInt8} (hp : live p = some cs) :
    Step H live (.free (some p)) .done (Function.update live p none)
  | write {p q : ℕ} {cs bs : List UInt8} (hq : live q = some cs) (hle : q ≤ p)
      (hin : p + bs.length ≤ q + cs.length) :
    Step H live (.write p bs) .done (Function.update live q (some (splice cs (p - q) bs)))
  | read {p q n : ℕ} {cs : List UInt8} (hq : live q = some cs) (hle : q ≤ p) (hin : p + n ≤ q + cs.length) :
    Step H live (.read p n) (.bytes ((cs.drop (p - q)).take n)) live

end Regions

namespace Mem

variable {H : Heap} {s s' : State} {m m' : ℕ → UInt8} {p q x : ℕ} {B B' : Set ℕ} {cs : List UInt8}
  {live : Regions}

/-! ### What clients may do -/

/-- What a client learns about the sizes of the regions from a call and its answer. -/
def grant (sizes : ℕ → Option ℕ) (x : Act × Out) : ℕ → Option ℕ :=
  match x with
  | (.malloc n, .ptr (some p)) => Function.update sizes p (some n.toNat)
  | (.calloc count size, .ptr (some p)) => Function.update sizes p (some (count.toNat * size.toNat))
  | (.free (some r), .done) => Function.update sizes r.toNat none
  | _ => sizes

/-- The sizes of the regions that the clients own after the calls of a trace. -/
def owned (tr : Trace) : ℕ → Option ℕ :=
  (tr.map fun e => (e.act, e.out)).foldl grant fun _ => none

/-- A client releases a region that it owns, and stays inside one when it reads or writes. -/
def Allowed (sizes : ℕ → Option ℕ) : Act → Prop
  | .malloc _ | .calloc _ _ | .free none => True
  | .free (some r) => ∃ p n : ℕ, r = p ∧ sizes p = some n
  | .write p bs => ∃ q n, sizes q = some n ∧ q ≤ p ∧ p + bs.length ≤ q + n
  | .read p k => ∃ q n, sizes q = some n ∧ q ≤ p ∧ p + k ≤ q + n

/-- The clients keep to their own regions. -/
def Proper (tr : Trace) : Prop :=
  ∀ l e r, tr = l ++ e :: r → Allowed (owned l) e.act

/-! ### Regions and blocks -/

/-- The bytes `cs` at `p` are the data of the block at `x`. -/
structure Holds (H : Heap) (m : ℕ → UInt8) (x p : ℕ) (cs : List UInt8) : Prop where
  start : p = x + H.sizeofMem
  fits : p + H.need cs.length ≤ (header m x).next
  snug : (header m x).next < p + H.need cs.length + H.gap
  data : Bytes.load m p cs.length = cs

theorem Holds.of_keeps (h : Holds H m x p cs) (hk : Keeps m m' x) : Holds H m' x p cs where
  start := h.start
  fits := by rw [hk.next]; exact h.fits
  snug := by rw [hk.next]; exact h.snug
  data := by
    have hsix := H.six_le_sizeofMem
    have hle := H.le_need cs.length
    have hfits := h.fits
    have hstart := h.start
    have hsame : ∀ i < cs.length, m' (p + i) = m (p + i) := fun i hi => hk.data _ (by omega) (by omega)
    rw [Bytes.load_congr hsame]
    exact h.data

/-- The regions are the data of the blocks in use. -/
structure Mirrors (H : Heap) (s : State) (B : Set ℕ) (live : Regions) : Prop where
  good : Good H s B
  holds : ∀ p cs, live p = some cs → ∃ x, Owns s.ram B x ∧ Holds H s.ram x p cs
  lives : ∀ x, Owns s.ram B x → ∃ cs, live (x + H.sizeofMem) = some cs

/-- A region changes with its block, and the other ones stay with theirs. -/
theorem Mirrors.update (h : Mirrors H s B live) (hg : Good H s' B') (x : ℕ) (c : Option (List UInt8))
    (hsame : ∀ w, w ≠ x → (Owns s'.ram B' w ↔ Owns s.ram B w))
    (hkeeps : ∀ w, Owns s.ram B w → w ≠ x → Keeps s.ram s'.ram w)
    (hsome : ∀ cs, c = some cs → Owns s'.ram B' x ∧ Holds H s'.ram x (x + H.sizeofMem) cs)
    (hnone : c = none → ¬ Owns s'.ram B' x) :
    Mirrors H s' B' (Function.update live (x + H.sizeofMem) c) := by
  refine ⟨hg, fun p cs hp => ?_, fun w hw => ?_⟩
  · by_cases hpx : p = x + H.sizeofMem
    · subst hpx
      rw [update_self] at hp
      exact ⟨x, hsome cs hp⟩
    · rw [update_of_ne hpx] at hp
      obtain ⟨w, hw, hh⟩ := h.holds p cs hp
      have hwx : w ≠ x := by
        rintro rfl
        exact hpx hh.start
      exact ⟨w, (hsame w hwx).mpr hw, hh.of_keeps (hkeeps w hw hwx)⟩
  · by_cases hwx : w = x
    · subst hwx
      cases c with
      | none => exact absurd hw (hnone rfl)
      | some cs => exact ⟨cs, update_self _ _ _⟩
    · obtain ⟨cs, hcs⟩ := h.lives w ((hsame w hwx).mp hw)
      exact ⟨cs, by rw [update_of_ne (by omega), hcs]⟩

/-- `mem_malloc` gives a region that meets no other one. -/
theorem Mirrors.malloc (h : Mirrors H s B live) (size : UInt16) :
    (∃ s', memMalloc H s size = .ok (none, s') ∧ Mirrors H s' B live) ∨
      ∃ p s' B' cs, memMalloc H s size = .ok (some p, s') ∧ cs.length = size.toNat ∧
        Mirrors H s' B' (Function.update live p (some cs)) ∧ live.Fresh H p size.toNat := by
  rcases memMalloc_eq h.good size with ⟨s', hm, hg, hram, -⟩ | ⟨x, s', B', hm, hx, hfree, ht⟩
  · exact .inl ⟨s', hm, hg, by rw [hram]; exact h.holds, by rw [hram]; exact h.lives⟩
  · right
    have hnew : ∀ w, Owns s.ram B w → w ≠ x := fun w hw => hw.ne_of_free hfree
    have hx' : Owns s'.ram B' x := (ht.owns x).mpr (.inl rfl)
    have hend := ht.good.shape.laid.le hx'.1
    have hneed := H.le_need size.toNat
    have hfits := ht.fits
    have hsnug := ht.snug
    refine ⟨x + H.sizeofMem, s', B', Bytes.load s'.ram (x + H.sizeofMem) size.toNat, hm, Bytes.load_length _ _ _,
      h.update ht.good x _ (fun w hwx => (ht.owns w).trans (or_iff_right hwx)) (fun w hw _ => ht.keeps w hw) ?_
        (fun hc => by cases hc), ?_, by omega, Nat.dvd_add (h.good.shape.aligned x hx) H.dvd_sizeofMem, ?_⟩
    · intro cs hcs
      obtain rfl := Option.some.inj hcs
      rw [← Bytes.load_length s'.ram (x + H.sizeofMem) size.toNat] at hfits hsnug
      exact ⟨hx', rfl, hfits, hsnug, by rw [Bytes.load_length]⟩
    · rw [Option.eq_none_iff_forall_ne_some]
      intro cs hcs
      obtain ⟨w, hw, hh⟩ := h.holds _ cs hcs
      have := hnew w hw
      have := hh.start
      omega
    · intro q cs hq
      obtain ⟨w, hw, hh⟩ := h.holds q cs hq
      have hk := (ht.keeps w hw).next
      have hlen := H.le_need cs.length
      have hwfits := hh.fits
      have hstart := hh.start
      rcases ht.good.shape.laid.separate ((ht.owns w).mpr (.inr hw)).1 hx'.1 with rfl | hsep | hsep
      · exact absurd rfl (hnew w hw)
      · exact .inl (by omega)
      · exact .inr (by omega)

theorem Mirrors.free (h : Mirrors H s B live) (hp : live p = some cs) :
    ∃ s' B', memFree H s (some (p : ℤ)) = .ok s' ∧ Mirrors H s' B' (Function.update live p none) := by
  obtain ⟨x, hx, hh⟩ := h.holds p cs hp
  obtain rfl : p = x + H.sizeofMem := hh.start
  obtain ⟨s', B', hm, hg, howns, hkeeps⟩ := memFree_eq h.good hx
  exact ⟨s', B', hm, h.update hg x none (fun w hwx => (howns w).trans (and_iff_left hwx)) hkeeps
    (fun cs hcs => by cases hcs) fun _ hx' => ((howns x).mp hx').2 rfl⟩

theorem load_store_splice (hlen : Bytes.load m q cs.length = cs) {ds : List UInt8} (hle : q ≤ p)
    (hin : p + ds.length ≤ q + cs.length) :
    Bytes.load (Bytes.store m p ds) q cs.length = Regions.splice cs (p - q) ds := by
  obtain ⟨i, rfl⟩ := Nat.exists_eq_add_of_le hle
  obtain ⟨k, hk⟩ : ∃ k, cs.length = i + ds.length + k := ⟨cs.length - i - ds.length, by omega⟩
  rw [hk, Bytes.load_add, Bytes.load_add] at hlen
  have htake : cs.take i = Bytes.load m q i := by
    rw [← hlen, List.append_assoc, List.take_left' (Bytes.load_length _ _ _)]
  have hdrop : cs.drop (i + ds.length) = Bytes.load m (q + (i + ds.length)) k := by
    rw [← hlen, List.drop_left' (by simp)]
  rw [hk, Bytes.load_add, Bytes.load_add, Bytes.load_store_of_outside (.inl (Nat.le_refl _)),
    Bytes.load_store, Bytes.load_store_of_outside (.inr (by omega)), Regions.splice, Nat.add_sub_cancel_left,
    htake, hdrop]

theorem Mirrors.write (h : Mirrors H s B live) (hq : live q = some cs) (ds : List UInt8) (hle : q ≤ p)
    (hin : p + ds.length ≤ q + cs.length) :
    Mirrors H { s with ram := Bytes.store s.ram p ds } B
      (Function.update live q (some (Regions.splice cs (p - q) ds))) := by
  obtain ⟨x, hx, hh⟩ := h.holds q cs hq
  obtain rfl : q = x + H.sizeofMem := hh.start
  have hs := h.good.shape
  have hsix := H.six_le_sizeofMem
  have hgap := H.six_le_gap
  have hneed := H.le_need cs.length
  have hfits := hh.fits
  -- what is written is data of the block
  have hout : Within s.ram (Bytes.store s.ram p ds) (x + 6) (header s.ram x).next :=
    fun b hb => Bytes.store_of_outside (by omega)
  have hclear : ∀ w ∈ B, w ≠ x → (header s.ram w).next ≤ x ∨ (header s.ram x).next ≤ w := fun w hw hwx =>
    ((hs.laid.separate hw hx.1).resolve_left hwx)
  have hhdr : ∀ w ∈ B, header (Bytes.store s.ram p ds) w = header s.ram w := fun w hw => by
    have := hclear w hw
    have := hs.laid.gap hw
    exact hout.header_eq (by omega)
  have hgood : Good H { s with ram := Bytes.store s.ram p ds } B := by
    refine ⟨⟨hs.laid.congr fun w hw => by simp [hhdr w hw], hs.aligned, ?_⟩,
      ⟨h.good.lowest.mem, fun w hw hu => h.good.lowest.le w hw (by rwa [← hhdr w hw])⟩, ?_⟩
    · rw [hout.header_eq (.inr (hs.laid.le hx.1))]
      exact hs.ramEnd_used
    · rintro w hw ⟨hne, hu, hnu⟩
      rw [hhdr w hw] at hne hu hnu
      rw [hhdr _ (hs.laid.next hw hne).1] at hnu
      exact h.good.tight w hw ⟨hne, hu, hnu⟩
  have howns : ∀ w, Owns (Bytes.store s.ram p ds) B w ↔ Owns s.ram B w := fun w =>
    and_congr_right fun hw => by rw [hhdr w hw]
  refine h.update hgood x _ (fun w _ => howns w) (fun w hw hwx => ⟨by rw [hhdr w hw.1], by rw [hhdr w hw.1],
    fun b hlo hhi => hout b (by have := hclear w hw.1 hwx; omega)⟩) (fun cs' hcs' => ?_) fun hc => by cases hc
  obtain rfl := Option.some.inj hcs'
  have hlen : (Regions.splice cs (p - (x + H.sizeofMem)) ds).length = cs.length := by
    rw [← load_store_splice hh.data hle hin, Bytes.load_length]
  exact ⟨(howns x).mpr hx, rfl, by rw [hlen, hhdr x hx.1]; exact hfits,
    by rw [hlen, hhdr x hx.1]; exact hh.snug, by rw [hlen]; exact load_store_splice hh.data hle hin⟩

/-- `mem_calloc` gives a region of zeros. -/
theorem Mirrors.calloc (h : Mirrors H s B live) (count size : UInt16) :
    (∃ s', memCalloc H s count size = .ok (none, s') ∧ Mirrors H s' B live) ∨
      ∃ p s' B', memCalloc H s count size = .ok (some p, s') ∧
        Mirrors H s' B' (Function.update live p (some (List.replicate (count.toNat * size.toNat) 0))) ∧
        live.Fresh H p (count.toNat * size.toNat) := by
  by_cases hbig : (count.toNat * size.toNat) % 2 ^ 16 ≠ count.toNat * size.toNat
  · exact .inl ⟨s, if_pos hbig, h⟩
  have hlt : count.toNat * size.toNat < 2 ^ 16 := by omega
  have hof : (UInt16.ofNat (count.toNat * size.toNat)).toNat = count.toNat * size.toNat :=
    UInt16.toNat_ofNat_of_lt hlt
  set n := count.toNat * size.toNat with hn
  rcases h.malloc (UInt16.ofNat n) with ⟨t, hm, hmir⟩ | ⟨p, t, B', cs, hm, hlen, hmir, hnew⟩
  · refine .inl ⟨t, ?_, hmir⟩
    unfold memCalloc
    rw [if_neg hbig, ← hn, hm]
  · right
    rw [hof] at hlen hnew
    have hw := hmir.write (p := p) (update_self p _ live) (List.replicate n 0)
      (Nat.le_refl p) (by rw [List.length_replicate, hlen])
    have hall : Regions.splice cs (p - p) (List.replicate n 0) = List.replicate n 0 := by
      simp [Regions.splice, hlen]
    rw [hall, update_idem] at hw
    refine ⟨p, _, B', ?_, hw, hnew⟩
    unfold memCalloc
    rw [if_neg hbig, ← hn, hm]

/-! ### Runs -/

theorem steps_of_call {a : Act} {o : Out} {r : Out × State} (h : steps H s a o s') (hc : call H s a = .ok r) :
    r = (o, s') := by
  rw [steps, Mem.step, hc] at h
  exact h

/-- A call of a client that keeps to its own regions is a step of the regions. -/
theorem Mirrors.step (h : Mirrors H s B live) {sizes : ℕ → Option ℕ}
    (hsizes : ∀ p, (live p).map List.length = sizes p) {a : Act} {o : Out} (ha : Allowed sizes a)
    (hstep : steps H s a o s') :
    ∃ B' live', Regions.Step H live a o live' ∧ Mirrors H s' B' live' ∧
      ∀ p, (live' p).map List.length = grant sizes (a, o) p := by
  have hlive : ∀ {p n}, sizes p = some n → ∃ cs, live p = some cs ∧ cs.length = n := by
    intro p n hp
    rw [← hsizes] at hp
    exact Option.map_eq_some_iff.mp hp
  have hupdate : ∀ p c n, c.map List.length = n → ∀ q, (Function.update live p c q).map List.length =
      Function.update sizes p n q := by
    rintro p c n rfl q
    by_cases hq : q = p
    · subst hq
      rw [update_self, update_self]
    · rw [update_of_ne hq, update_of_ne hq, hsizes]
  cases a with
  | malloc n =>
    rcases h.malloc n with ⟨t, hm, hmir⟩ | ⟨p, t, B', cs, hm, hlen, hmir, hnew⟩
    · cases steps_of_call hstep (by rw [call, hm]; rfl)
      exact ⟨B, live, .noMalloc, hmir, hsizes⟩
    · cases steps_of_call hstep (by rw [call, hm]; rfl)
      exact ⟨B', _, .malloc hlen hnew, hmir, hupdate p _ _ (by rw [Option.map_some, hlen])⟩
  | calloc count size =>
    rcases h.calloc count size with ⟨t, hm, hmir⟩ | ⟨p, t, B', hm, hmir, hnew⟩
    · cases steps_of_call hstep (by rw [call, hm]; rfl)
      exact ⟨B, live, .noCalloc, hmir, hsizes⟩
    · cases steps_of_call hstep (by rw [call, hm]; rfl)
      exact ⟨B', _, .calloc hnew, hmir, hupdate p _ _ (by rw [Option.map_some, List.length_replicate])⟩
  | free r =>
    cases r with
    | none =>
      cases steps_of_call hstep rfl
      exact ⟨B, live, .freeNull, h, hsizes⟩
    | some r =>
      obtain ⟨p, n, rfl, hp⟩ := ha
      obtain ⟨cs, hcs, -⟩ := hlive hp
      obtain ⟨t, B', hm, hmir⟩ := h.free hcs
      cases steps_of_call hstep (by rw [call, hm]; rfl)
      exact ⟨B', _, .free hcs, hmir, hupdate p none _ rfl⟩
  | write p ds =>
    obtain ⟨q, k, hq, hle, hin⟩ := ha
    obtain ⟨cs, hcs, rfl⟩ := hlive hq
    cases steps_of_call hstep rfl
    refine ⟨B, _, .write hcs hle hin, h.write hcs _ hle hin, fun w => ?_⟩
    have hlen : (Regions.splice cs (p - q) ds).length = cs.length := by
      simp only [Regions.splice, List.length_append, List.length_take, List.length_drop]
      omega
    rw [hupdate q _ _ (by rw [Option.map_some, hlen]), ← hq, update_eq_self]
    rfl
  | read p k =>
    obtain ⟨q, n, hq, hle, hin⟩ := ha
    obtain ⟨cs, hcs, rfl⟩ := hlive hq
    cases steps_of_call hstep rfl
    obtain ⟨x, -, hh⟩ := h.holds q cs hcs
    have hdata : Bytes.load s.ram p k = (cs.drop (p - q)).take k := by
      obtain ⟨i, rfl⟩ := Nat.exists_eq_add_of_le hle
      rw [← Bytes.take_drop_load (n := cs.length) (by omega), hh.data, Nat.add_sub_cancel_left]
    rw [hdata]
    exact ⟨B, live, .read hcs hle hin, h, hsizes⟩

theorem mirrors_memInit (H : Heap) (m : ℕ → UInt8) :
    Mirrors H (memInit H m) {0} fun _ => none where
  good := good_memInit H m
  holds p cs hp := by cases hp
  lives x hx := by
    obtain ⟨rfl, hu⟩ := hx
    rw [(header_memInit H m).1] at hu
    cases hu

structure Tracks (H : Heap) (tr : Trace) (s : State) (B : Set ℕ)
    (live : Regions) : Prop where
  mirrors : Mirrors H s B live
  sizes : ∀ p, (live p).map List.length = owned tr p
  runs : ∃ tr', Run (Regions.Step H) (fun _ => none) tr' live ∧
    tr'.map (fun e => (e.act, e.out)) = tr.map fun e => (e.act, e.out)

theorem Runs.tracks {tr : Trace} (h : Runs H tr s) (hp : Proper tr) :
    ∃ B live, Tracks H tr s B live := by
  obtain ⟨m, h⟩ := h
  refine h.past (P := fun l e => Allowed (owned l) e.act) (J := fun l s => ∃ B live, Tracks H l s B live)
    ⟨_, _, mirrors_memInit H m, fun _ => rfl, [], .nil, rfl⟩ hp ?_
  rintro l e hs ha ⟨B, live, hmir, hsizes, tr', hrun, hlabels⟩
  obtain ⟨B', live', hstep, hmir', hsizes'⟩ := hmir.step hsizes ha hs
  refine ⟨B', live', hmir', fun p => ?_, tr' ++ [⟨live, e.act, e.out, live'⟩], hrun.snoc hstep, ?_⟩
  · rw [hsizes' p, owned, owned, List.map_append, List.foldl_append]
    rfl
  · rw [List.map_append, List.map_append, hlabels]
    rfl

/-- What a call of a run starts from. -/
theorem Runs.at_call {l r : Trace} {e : Event State Act Out} (h : Runs H (l ++ e :: r) s)
    (hp : Proper (l ++ e :: r)) :
    (∃ B live, Tracks H l e.pre B live) ∧ steps H e.pre e.act e.out e.post := by
  obtain ⟨m, h⟩ := h
  obtain ⟨hl, hs, -⟩ := h.at_event
  have hl' : Runs H l e.pre := ⟨m, hl⟩
  exact ⟨hl'.tracks fun l' e' r' heq => hp l' e' (r' ++ e :: r) (by rw [heq]; simp), hs⟩

/-- As long as its clients keep to their own regions, the heap gives out regions that do not meet, and the
bytes of a region are the ones that its owner has written; its assertions do not fail. -/
theorem heap_refines_regions {tr : Trace} (h : Runs H tr s) (hp : Proper tr) :
    ∃ tr' live, Run (Regions.Step H) (fun _ => none) tr' live ∧
      tr'.map (fun e => (e.act, e.out)) = tr.map fun e => (e.act, e.out) := by
  obtain ⟨B, live, ht⟩ := h.tracks hp
  obtain ⟨tr', hrun, hlabels⟩ := ht.runs
  exact ⟨tr', live, hrun, hlabels⟩

def defaultHeap : Heap where
  memSize := 1600
  alignment := 1
  minSize := 12
  alignment_pow := ⟨0, rfl⟩
  minSize_pos := Nat.succ_pos 11
  memSize_fits := by decide
  memSize_room := by decide

/-- The calls of a list are allowed one after the other. -/
def AllAllowed (sizes : ℕ → Option ℕ) : List (Act × Out) → Prop
  | [] => True
  | x :: xs => Allowed sizes x.1 ∧ AllAllowed (grant sizes x) xs

theorem AllAllowed.at {sizes : ℕ → Option ℕ} {l r : List (Act × Out)} {x : Act × Out}
    (h : AllAllowed sizes (l ++ x :: r)) : Allowed (l.foldl grant sizes) x.1 := by
  induction l generalizing sizes with
  | nil => exact h.1
  | cons y l ih => exact ih h.2

/-- A run of the default heap with these calls and answers. -/
theorem exists_runs (xs : List (Act × Out)) (hx : AllAllowed (fun _ => none) xs)
    (h : (exec (fun s a => some (step defaultHeap s a)) (memInit defaultHeap fun _ => 0) (xs.map (·.1))).any
      (fun r => decide (r.1.map (fun e => (e.act, e.out)) = xs)) = true) :
    ∃ tr s, Runs defaultHeap tr s ∧ Proper tr ∧ tr.map (fun e => (e.act, e.out)) = xs := by
  obtain ⟨tr, s, hrun, -, hlabels⟩ := exists_run_of_exec (xs.map (·.1)) _ h
  refine ⟨tr, s, ⟨_, hrun.mono fun _ _ _ _ hs => Option.some.inj hs⟩, ?_, hlabels⟩
  rintro l e r rfl
  rw [← hlabels, List.map_append, List.map_cons] at hx
  exact hx.at

/-- One client writes to its region, another one gives its region back and gets some of it again. -/
def twoClients : List (Act × Out) :=
  [(.malloc 20, .ptr (some 6)), (.malloc 30, .ptr (some 32)), (.write 32 [1, 2, 3], .done),
    (.free (some 6), .done), (.calloc 2 4, .ptr (some 6)), (.read 32 3, .bytes [1, 2, 3])]

theorem heap_refines_regions_two : ∃ tr s, Runs defaultHeap tr s ∧ Proper tr ∧
    tr.map (fun e => (e.act, e.out)) = twoClients ∧
    ∃ tr' live, Run (Regions.Step defaultHeap) (fun _ => none) tr' live ∧
      tr'.map (fun e => (e.act, e.out)) = twoClients := by
  obtain ⟨tr, s, hruns, hproper, hlabels⟩ := exists_runs twoClients ⟨trivial, trivial,
    ⟨32, 30, rfl, by decide, by decide⟩, ⟨6, 20, rfl, rfl⟩, trivial, ⟨32, 30, rfl, by decide, by decide⟩,
    trivial⟩ (by decide +kernel)
  exact ⟨tr, s, hruns, hproper, hlabels, hlabels ▸ heap_refines_regions hruns hproper⟩

/-- `mem_malloc` fails only if there is no room: wherever a block of the wanted size could lie in the heap,
it would meet the block of a region that a client owns. What that block has more than the client asked
for is too small for another block. -/
theorem malloc_fails_only_without_room {l r : Trace} {e : Event State Act Out}
    (h : Runs H (l ++ e :: r) s) (hp : Proper (l ++ e :: r)) {n : UInt16} (hn : n ≠ 0)
    (ha : e.act = .malloc n) (ho : e.out = .ptr none) {a : ℕ}
    (hfit : a + H.sizeofMem + H.need n.toNat ≤ H.ramEnd) :
    ∃ p k, owned l p = some k ∧ H.sizeofMem ≤ p ∧ p - H.sizeofMem < a + H.sizeofMem + H.need n.toNat ∧
      a < (header e.pre.ram (p - H.sizeofMem)).next ∧
      (header e.pre.ram (p - H.sizeofMem)).next < p + H.need k + H.gap := by
  obtain ⟨⟨B, live, ht⟩, hs⟩ := h.at_call hp
  have hgood := ht.mirrors.good
  rw [ha, ho] at hs
  rcases memMalloc_eq hgood n with ⟨t, hm, -, -, hsmall⟩ | ⟨x, t, B', hm, -⟩
  · by_contra hnone
    push Not at hnone
    -- otherwise a free block would cover the place
    have hfree : ∀ x ∈ B, (header e.pre.ram x).used = true → (header e.pre.ram x).next ≤ a ∨
        a + (H.sizeofMem + H.need n.toNat) ≤ x := by
      intro x hx hu
      obtain ⟨cs, hcs⟩ := ht.mirrors.lives x ⟨hx, hu⟩
      have hown : owned l (x + H.sizeofMem) = some cs.length := by rw [← ht.sizes, hcs]; rfl
      obtain ⟨w, -, hh⟩ := ht.mirrors.holds _ cs hcs
      obtain rfl : x = w := Nat.add_right_cancel hh.start
      have hsnug := hh.snug
      have := hnone _ _ hown (Nat.le_add_left _ _)
      rw [Nat.add_sub_cancel] at this
      omega
    have hsix := H.six_le_sizeofMem
    obtain ⟨x, hx, hu, hle, hge⟩ := hgood.shape.laid.free_block H.gap_pos hgood.tight (by omega)
      (by omega) hfree
    have := hsmall hn x hx hu
    omega
  · cases steps_of_call hs (by rw [call, hm]; rfl)

/-- The whole heap is given out, and another byte is not to be had. -/
theorem malloc_fails_only_without_room_full : ∃ (l r : Trace) (e : Event State Act Out) (s : State),
    Runs defaultHeap (l ++ e :: r) s ∧ e.act = .malloc 1 ∧ e.out = .ptr none ∧
      ∃ p k, owned l p = some k ∧ p - 6 < 1000 ∧ 800 < (header e.pre.ram (p - 6)).next ∧
        (header e.pre.ram (p - 6)).next < p + defaultHeap.need k + defaultHeap.gap := by
  obtain ⟨tr, s, hruns, hproper, hlabels⟩ := exists_runs
    [(.malloc 1580, .ptr (some 6)), (.malloc 1, .ptr none)] ⟨trivial, trivial, trivial⟩ (by decide +kernel)
  obtain ⟨e₁, tr₁, rfl, -, htail⟩ := List.map_eq_cons_iff.mp hlabels
  obtain ⟨e, tr₂, rfl, he, -⟩ := List.map_eq_cons_iff.mp htail
  have hact : e.act = .malloc 1 := congrArg Prod.fst he
  have hout : e.out = .ptr none := congrArg Prod.snd he
  obtain ⟨p, k, hown, -, hlt, hgt⟩ := malloc_fails_only_without_room (l := [e₁]) (r := tr₂) (a := 800)
    hruns hproper (by decide) hact hout (by decide)
  exact ⟨[e₁], tr₂, e, s, hruns, hact, hout, p, k, hown, hlt.trans_le (by decide), hgt⟩

end Mem

end Nanvix.Net
