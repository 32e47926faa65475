import Nanvix.Pm.Exception

/-! How an exception is handed over to the user-space handler and back. The story of a core keeps
what the calls have shown since the core raised its exception: what `exception_pause` has returned
for it, and whether `exception_resume` has run since. A story that has begun is at one of three
points, and the entry of the core, its lock and the variable `handling` tell which. -/

namespace Nanvix.Pm.Exception

open Nanvix.Lib Function

variable {N M : ℕ} {ε : Type}

/-! ### The story of a core -/

/-- What has been seen of the exception that a core has raised and not left. A return of
`exception_pause` is kept with whether the call had a place to store the information. -/
inductive Story (N : ℕ) (ε : Type) where
  | quiet
  | told (i : Fin N) (w : Waiter ε) (shown : List (Bool × Option ε)) (resumed : Bool)

namespace Story

def deliver (y : Bool × Option ε) : Story N ε → Story N ε
  | .quiet => .quiet
  | .told i w shown _ => .told i w (shown ++ [y]) false

def resume : Story N ε → Story N ε
  | .quiet => .quiet
  | .told i w shown _ => .told i w shown true

end Story

/-- The call of the handler has a place to store the information. -/
def stores (e : Event (State N M ε) (Act N M ε) (Out ε)) : Bool :=
  match e.act with
  | .pause store => store
  | _ =>
    match e.pre.handler with
    | .woken store => store
    | _ => false

/-- The entry whose exception `exception_pause` returns in this step. -/
def delivered (e : Event (State N M ε) (Act N M ε) (Out ε)) : Option (Fin N × Fin M) :=
  match e.act with
  | .pause _ | .regrab => if e.out.succeeds then e.post.handling else none
  | _ => none

/-- The entry whose thread `exception_resume` resumes in this step. -/
def released (e : Event (State N M ε) (Act N M ε) (Out ε)) : Option (Fin N × Fin M) :=
  match e.act with
  | .resume => if e.out.succeeds then e.pre.handling else none
  | _ => none

/-- A core leaves `exception_wait` after its thread was resumed. -/
def Leaves (e : Event (State N M ε) (Act N M ε) (Out ε)) (j : Fin M) : Prop :=
  e.act = .lock j

/-- How an event moves the stories. A call of `exception_wait` that does not return at once has
raised an exception. -/
def stories (st : Fin M → Story N ε) (e : Event (State N M ε) (Act N M ε) (Out ε)) :
    Fin M → Story N ε :=
  match e.act with
  | .wait j i thread excp =>
    if e.out.succeeds then st else update st j (.told i ⟨thread, excp⟩ [] false)
  | .lock j => update st j .quiet
  | .pause _ | .regrab =>
    match delivered e with
    | some k => update st k.2 ((st k.2).deliver (stores e, e.out.info))
    | none => st
  | .resume =>
    match released e with
    | some k => update st k.2 (st k.2).resume
    | none => st
  | .control .. | .unlock _ | .acquire => st

def storiesOf (tr : List (Event (State N M ε) (Act N M ε) (Out ε))) : Fin M → Story N ε :=
  tr.foldl stories fun _ => .quiet

/-! ### What the tables tell of a story -/

/-- What the tables keep of an entry: who waits, whether its lock is taken, and whether the handler
serves it. -/
structure Cell (ε : Type) where
  waiting : Option (Waiter ε)
  lock : Bool
  served : Bool

def Cell.free : Cell ε := ⟨none, true, false⟩

def cell (s : State N M ε) (k : Fin N × Fin M) : Cell ε :=
  ⟨s.waiting k, s.locks k, s.handling == some k⟩

def column (s : State N M ε) (j : Fin M) : Fin N → Cell ε := fun i => cell s (i, j)

/-- The column of a core with one exception. -/
def column1 (i : Fin N) (c : Cell ε) : Fin N → Cell ε := update (fun _ => .free) i c

/-- What a call with or without a place to store it gets of an information. -/
def shownAs (store : Bool) (excp : ε) : Bool × Option ε := (store, if store then some excp else none)

def Core.exception : Core N → Option (Fin N)
  | .out => none
  | .raised i | .waits i => some i

/-- A story, where its core is, and what the entries of that core hold. -/
inductive Fits : Story N ε → Core N → (Fin N → Cell ε) → Prop
  | quiet : Fits .quiet .out fun _ => .free
  | raised {i w c} (hc : c.exception = some i) : Fits (.told i w [] false) c (column1 i ⟨some w, true, false⟩)
  | served {i w c store} (hc : c.exception = some i) :
      Fits (.told i w [shownAs store w.excp] false) c (column1 i ⟨some w, true, true⟩)
  | resumed {i w c store} (hc : c.exception = some i) :
      Fits (.told i w [shownAs store w.excp] true) c (column1 i ⟨none, false, false⟩)

structure Handed (st : Fin M → Story N ε) (s : State N M ε) : Prop where
  fits : ∀ j, Fits (st j) (s.cores j) (column s j)
  handled : ∀ {i j}, (s.waiting (i, j)).isSome → s.action i = .handle
  serving : s.handling.isSome → s.handler = .serving
  blocked : ∀ {store i j}, s.handler = .blocked store → s.ulock = true →
    (s.waiting (i, j)).isSome → s.cores j = .raised i

variable {s t : State N M ε} {st : Fin M → Story N ε} {x : Story N ε} {c : Core N}
  {col : Fin N → Cell ε} {i : Fin N} {j : Fin M} {k : Fin N × Fin M}

@[simp] theorem column1_self (d : Cell ε) : column1 i d i = d := update_self ..

theorem column1_of_ne {i' : Fin N} (h : i' ≠ i) (d : Cell ε) : column1 i d i' = .free :=
  update_of_ne h ..

theorem column1_update (d d' : Cell ε) : update (column1 i d) i d' = column1 i d' :=
  update_idem ..

theorem column1_free (d : Cell ε) : update (column1 i d) i .free = fun _ => .free := by
  rw [column1_update, column1, update_eq_self_iff]

/-- An entry of a core that is not free is the one of the exception the core has raised. -/
theorem eq_of_not_free {i' : Fin N} {d : Cell ε} (h : column1 i d i' ≠ .free) : i' = i := by
  by_contra hne
  exact h (column1_of_ne hne d)

theorem Fits.out (h : Fits x .out col) : x = .quiet ∧ col = fun _ => .free := by
  cases h with
  | quiet => exact ⟨rfl, rfl⟩
  | raised hc | served hc | resumed hc => cases hc

theorem Fits.of_raised (h : Fits x c col) (hw : (col i).waiting.isSome) (hs : (col i).served = false) :
    ∃ w, x = .told i w [] false ∧ c.exception = some i ∧ col = column1 i ⟨some w, true, false⟩ := by
  have hne : col i ≠ .free := fun h => by rw [h] at hw; cases hw
  cases h with
  | quiet => exact absurd rfl hne
  | raised hc =>
    obtain rfl := eq_of_not_free hne
    exact ⟨_, rfl, hc, rfl⟩
  | served hc =>
    obtain rfl := eq_of_not_free hne
    rw [column1_self] at hs
    cases hs
  | resumed hc =>
    obtain rfl := eq_of_not_free hne
    rw [column1_self] at hw
    cases hw

theorem Fits.of_served (h : Fits x c col) (hs : (col i).served = true) :
    ∃ w store, x = .told i w [shownAs store w.excp] false ∧ c.exception = some i ∧
      col = column1 i ⟨some w, true, true⟩ := by
  have hne : col i ≠ .free := fun h => by rw [h] at hs; cases hs
  cases h with
  | quiet => exact absurd rfl hne
  | raised hc | resumed hc =>
    obtain rfl := eq_of_not_free hne
    rw [column1_self] at hs
    cases hs
  | served hc =>
    obtain rfl := eq_of_not_free hne
    exact ⟨_, _, rfl, hc, rfl⟩

theorem Fits.of_unlocked (h : Fits x c col) (hl : (col i).lock = false) :
    ∃ w store, x = .told i w [shownAs store w.excp] true ∧ c.exception = some i ∧
      col = column1 i ⟨none, false, false⟩ := by
  have hne : col i ≠ .free := fun h => by rw [h] at hl; cases hl
  cases h with
  | quiet => exact absurd rfl hne
  | raised hc | served hc =>
    obtain rfl := eq_of_not_free hne
    rw [column1_self] at hl
    cases hl
  | resumed hc =>
    obtain rfl := eq_of_not_free hne
    exact ⟨_, _, rfl, hc, rfl⟩

/-- Where a core is in `exception_wait` does not matter to its story. -/
theorem Fits.move {c' : Core N} (h : Fits x c col) (hc : c'.exception = c.exception) : Fits x c' col := by
  cases h with
  | quiet =>
    cases c' with
    | out => exact .quiet
    | raised | waits => cases hc
  | raised h => exact .raised (hc.trans h)
  | served h => exact .served (hc.trans h)
  | resumed h => exact .resumed (hc.trans h)

/-- A step that touches one entry of one core. -/
theorem column_update (h : ∀ k', k' ≠ (i, j) → cell t k' = cell s k') :
    (∀ j', j' ≠ j → column t j' = column s j') ∧
      column t j = update (column s j) i (cell t (i, j)) := by
  constructor
  · intro j' hj
    funext i'
    exact h (i', j') fun heq => hj (Prod.mk.inj heq).2
  · funext i'
    by_cases hi : i' = i
    · rw [hi, update_self]
      rfl
    · rw [update_of_ne hi]
      exact h (i', j) fun heq => hi (Prod.mk.inj heq).1

/-- A step that moves the story of one core and leaves the other cores alone. -/
theorem fits_update (h : ∀ j', Fits (st j') (s.cores j') (column s j'))
    (hcol : ∀ j', j' ≠ j → column t j' = column s j') (hcore : ∀ j', j' ≠ j → t.cores j' = s.cores j')
    (hj : Fits x (t.cores j) (column t j)) (j' : Fin M) :
    Fits (update st j x j') (t.cores j') (column t j') := by
  by_cases hne : j' = j
  · rw [hne, update_self]
    exact hj
  · rw [update_of_ne hne, hcol j' hne, hcore j' hne]
    exact h j'

/-! ### The steps -/

theorem Handed.not_handling (h : Handed st s) (hpc : s.handler ≠ .serving) : s.handling = none := by
  by_contra hne
  exact hpc (h.serving (Option.isSome_iff_ne_none.mpr hne))

theorem Looks.ne_serving {a : Act N M ε} {store : Bool} (h : Looks s a store) : s.handler ≠ .serving := by
  rcases h with ⟨-, h⟩ | ⟨-, h⟩ <;> rw [h] <;> simp

/-- The exception that the handler finds has been raised and not been returned before. -/
theorem Handed.found (h : Handed st s) (hpc : s.handler ≠ .serving) (hwait : (s.waiting k).isSome) :
    ∃ w, st k.2 = .told k.1 w [] false ∧ s.waiting k = some w ∧
      (s.cores k.2).exception = some k.1 ∧ column s k.2 = column1 k.1 ⟨some w, true, false⟩ := by
  have hnone := h.not_handling hpc
  obtain ⟨w, hst, hc, hcol⟩ := (h.fits k.2).of_raised (i := k.1) hwait (by simp [column, cell, hnone])
  refine ⟨w, hst, ?_, hc, hcol⟩
  have hcell : cell s k = ⟨some w, true, false⟩ := by
    rw [← column1_self (i := k.1) ⟨some w, true, false⟩, ← hcol]
    rfl
  exact congrArg Cell.waiting hcell

/-- The exception in the hands of the handler waits and is handled. -/
theorem Handed.in_hands (h : Handed st s) (hk : s.handling = some k) :
    (s.waiting k).isSome ∧ s.action k.1 = .handle := by
  obtain ⟨w, store, -, -, hcol⟩ := (h.fits k.2).of_served (i := k.1) (by simp [column, cell, hk])
  have hw : s.waiting k = some w :=
    congrArg Cell.waiting ((congrFun hcol k.1).trans (column1_self ⟨some w, true, true⟩))
  have hsome : (s.waiting k).isSome := by rw [hw]; rfl
  exact ⟨hsome, h.handled hsome⟩

theorem stores_of_looks {a : Act N M ε} {store : Bool} {o : Out ε} (h : Looks s a store) :
    stores ⟨s, a, o, t⟩ = store := by
  rcases h with ⟨rfl, -⟩ | ⟨rfl, hpc⟩
  · rfl
  · simp [stores, hpc]

theorem delivered_of_looks {a : Act N M ε} {store : Bool} {o : Out ε} (h : Looks s a store)
    (ho : o.succeeds = true) : delivered ⟨s, a, o, t⟩ = t.handling := by
  rcases h with ⟨rfl, -⟩ | ⟨rfl, -⟩ <;> simp [delivered, ho]

theorem stories_of_looks {a : Act N M ε} {store : Bool} {o : Out ε} (h : Looks s a store) :
    stories st ⟨s, a, o, t⟩ =
      match delivered ⟨s, a, o, t⟩ with
      | some k => update st k.2 ((st k.2).deliver (store, o.info))
      | none => st := by
  rw [← stores_of_looks (t := t) (o := o) h]
  rcases h with ⟨rfl, -⟩ | ⟨rfl, -⟩ <;> rfl

theorem waiting_update {w : Option (Waiter ε)} {k' : Fin N × Fin M}
    (h : (update s.waiting k w k').isSome) : k' = k ∧ w.isSome ∨ (s.waiting k').isSome := by
  by_cases hk : k' = k
  · rw [hk, update_self] at h
    exact .inl ⟨hk, h⟩
  · rw [update_of_ne hk] at h
    exact .inr h

/-- A core that is not in `exception_wait` raises a handled exception. -/
theorem Handed.raise {w : Waiter ε} (h : Handed st s) (hcore : s.cores j = .out)
    (hact : s.action i = .handle) :
    Handed (update st j (.told i w [] false)) (raise s j i w) := by
  obtain ⟨-, hfree⟩ := Fits.out (hcore ▸ h.fits j)
  obtain ⟨hcol, hcolj⟩ := column_update (t := Exception.raise s j i w) (s := s) (i := i) (j := j)
    fun k' hk => by simp only [cell, Exception.raise, update_of_ne hk]
  have hnew : cell (Exception.raise s j i w) (i, j) = ⟨some w, true, false⟩ := by
    have hcell : cell s (i, j) = .free := congrFun hfree i
    simp only [cell, Cell.free, Cell.mk.injEq] at hcell
    simp only [cell, Exception.raise, update_self, hcell.2.1, hcell.2.2]
  constructor
  case fits =>
    refine fits_update h.fits hcol (fun j' hj => update_of_ne hj ..) ?_
    rw [hcolj, hfree, hnew]
    exact .raised (by simp only [Exception.raise, update_self, Core.exception])
  case handled =>
    intro i' j' hw
    rcases waiting_update hw with ⟨hk, -⟩ | hw
    · rw [(Prod.mk.inj hk).1]
      exact hact
    · exact h.handled hw
  case serving => exact h.serving
  case blocked =>
    intro store i' j' hpc hu hw
    rcases waiting_update hw with ⟨hk, -⟩ | hold
    · rw [(Prod.mk.inj hk).1, (Prod.mk.inj hk).2]
      exact update_self ..
    · -- an entry that was there is of another core
      have hj : j' ≠ j := by
        rintro rfl
        rw [h.blocked hpc hu hold] at hcore
        cases hcore
      exact (update_of_ne hj ..).trans (h.blocked hpc hu hold)

theorem Handed.unlock (h : Handed st s) (hcore : s.cores j = .raised i) : Handed st (waitUnlock s j i) := by
  refine ⟨fun j' => (h.fits j').move ?_, h.handled, h.serving, fun _ hu => by cases hu⟩
  by_cases hj : j' = j
  · simp only [hj, waitUnlock, update_self, hcore, Core.exception]
  · simp only [waitUnlock, update_of_ne hj]

theorem Handed.leave (h : Handed st s) (hcore : s.cores j = .waits i) (hfree : s.locks (i, j) = false) :
    Handed (update st j .quiet) (waitLock s j i) := by
  obtain ⟨w, store, -, -, hold⟩ := (h.fits j).of_unlocked (i := i) hfree
  obtain ⟨hcol, hcolj⟩ := column_update (t := waitLock s j i) (s := s) (i := i) (j := j)
    fun k' hk => by simp only [cell, waitLock, update_of_ne hk]
  have hcell : cell s (i, j) = ⟨none, false, false⟩ := (congrFun hold i).trans (column1_self _)
  simp only [cell, Cell.mk.injEq] at hcell
  have hnew : cell (waitLock s j i) (i, j) = .free := by
    simp only [cell, waitLock, update_self, hcell.1, hcell.2.2, Cell.free]
  constructor
  case fits =>
    refine fits_update h.fits hcol (fun j' hj => update_of_ne hj ..) ?_
    rw [hcolj, hold, hnew, column1_free]
    simp only [waitLock, update_self]
    exact .quiet
  case handled => exact h.handled
  case serving => exact h.serving
  case blocked =>
    intro store i' j' hpc hu hw
    have hj : j' ≠ j := by
      rintro rfl
      have := h.blocked hpc hu hw
      rw [hcore] at this
      cases this
    exact (update_of_ne hj ..).trans (h.blocked hpc hu hw)

/-- The handler takes an exception that waits. -/
theorem Handed.serve {store : Bool} (h : Handed st s) (hpc : s.handler ≠ .serving)
    (hwait : (s.waiting k).isSome) :
    Handed (update st k.2
      ((st k.2).deliver (store, if store then (s.waiting k).map (·.excp) else none))) (serve s k) := by
  obtain ⟨i, j⟩ := k
  have hnone := h.not_handling hpc
  obtain ⟨w, hst, hw, hc, hold⟩ := h.found hpc hwait
  obtain ⟨hcol, hcolj⟩ := column_update (t := Exception.serve s (i, j)) (s := s) (i := i) (j := j)
    fun k' hk => by
      have hne : (some (i, j) == some k') = false := by simpa using Ne.symm hk
      simp only [cell, Exception.serve, hnone, hne]
      rfl
  have hcell : cell s (i, j) = ⟨some w, true, false⟩ := (congrFun hold i).trans (column1_self _)
  simp only [cell, Cell.mk.injEq] at hcell
  have hnew : cell (Exception.serve s (i, j)) (i, j) = ⟨some w, true, true⟩ := by
    simp only [cell, Exception.serve, hcell.1, hcell.2.1, beq_self_eq_true]
  refine ⟨fits_update h.fits hcol (fun j' hj => rfl) ?_, h.handled, fun _ => rfl, fun hb => by cases hb⟩
  rw [hcolj, hold, hnew, column1_update, hst, hw]
  exact .served hc

/-- The handler resumes the thread whose exception it has. -/
theorem Handed.release (h : Handed st s) (hk : s.handling = some k) :
    Handed (update st k.2 (st k.2).resume) (release s k) := by
  obtain ⟨i, j⟩ := k
  obtain ⟨w, store, hst, hc, hold⟩ := (h.fits j).of_served (i := i) (by simp [column, cell, hk])
  obtain ⟨hcol, hcolj⟩ := column_update (t := Exception.release s (i, j)) (s := s) (i := i) (j := j)
    fun k' hne => by
      have hk' : (some (i, j) == some k') = false := by simpa using Ne.symm hne
      simp only [cell, Exception.release, update_of_ne hne, hk, hk']
      rfl
  have hnew : cell (Exception.release s (i, j)) (i, j) = ⟨none, false, false⟩ := by
    simp only [cell, Exception.release, update_self]
    rfl
  constructor
  case fits =>
    refine fits_update h.fits hcol (fun j' hj => rfl) ?_
    rw [hcolj, hold, hnew, column1_update, hst]
    exact .resumed hc
  case handled =>
    intro i' j' hw
    rcases waiting_update hw with ⟨-, hw⟩ | hw
    · cases hw
    · exact h.handled hw
  case serving => intro hno; cases hno
  case blocked => intro store i' j' hb; cases hb

theorem Handed.step {e : Event (State N M ε) (Act N M ε) (Out ε)} (h : Handed st e.pre)
    (hs : steps e.pre e.act e.out e.post) : Handed (stories st e) e.post := by
  obtain ⟨s, a, o, t⟩ := e
  dsimp only at h hs
  cases steps_cases hs with
  | failed hcall =>
    rcases hcall with ⟨i, c, rfl⟩ | ⟨b, rfl⟩ <;> exact h
  | ignored => exact h
  | @controlled i action hnone =>
    refine ⟨h.fits, fun {i' j} hw => ?_, h.serving, h.blocked⟩
    have hact := h.handled hw
    by_cases hi : i' = i
    · subst hi
      -- nobody waits with an exception that is ignored from now on
      cases action with
      | ignore => rw [show s.waiting (i', j) = none from hnone rfl j] at hw; cases hw
      | handle => exact update_self ..
    · exact (update_of_ne hi ..).trans hact
  | raised hcore hact => exact h.raise hcore hact
  | unlocked hcore => exact h.unlock hcore
  | left hcore hfree => exact h.leave hcore hfree
  | @grabbed _ store k hlook hact hwait =>
    rw [stories_of_looks hlook, delivered_of_looks hlook rfl]
    exact h.serve hlook.ne_serving hwait
  | @slept _ store hlook hnone =>
    have hst : stories st ⟨s, a, Out.goesOn, { s with handler := .blocked store }⟩ = st := by
      rcases hlook with ⟨rfl, -⟩ | ⟨rfl, -⟩ <;> rfl
    rw [hst]
    refine ⟨h.fits, h.handled, fun hk => ?_, fun {_ i j} _ _ hw => ?_⟩
    · rw [show s.handling = none from h.not_handling hlook.ne_serving] at hk
      cases hk
    · -- nobody waits when the handler goes to wait
      rw [show s.waiting (i, j) = none from hnone i j (h.handled hw)] at hw
      cases hw
  | acquired hpc hfree =>
    refine ⟨h.fits, h.handled, fun hk => ?_, fun hpc' => by cases hpc'⟩
    rw [h.serving hk] at hpc
    cases hpc
  | idle hno =>
    refine ⟨h.fits, h.handled, fun hk => ?_, fun hb => by cases hb⟩
    obtain ⟨k, hk⟩ := Option.isSome_iff_exists.mp hk
    obtain ⟨hwait, hact⟩ := h.in_hands hk
    rcases hno k hk with hign | hnone
    · rw [hact] at hign
      cases hign
    · rw [show s.waiting k = none from hnone] at hwait
      cases hwait
  | @resumed k hk hwait =>
    have hst : stories st ⟨s, .resume, Out.done, Exception.release s k⟩ =
        update st k.2 (st k.2).resume := by
      simp only [stories, released, hk, Out.succeeds, Out.done, if_true]
    rw [hst]
    exact h.release hk

theorem handed_init : Handed (fun _ => .quiet) (init : State N M ε) where
  fits _ := .quiet
  handled h := by cases h
  serving h := by cases h
  blocked _ _ h := by cases h

variable {tr l r : List (Event (State N M ε) (Act N M ε) (Out ε))}
  {e : Event (State N M ε) (Act N M ε) (Out ε)}

theorem handed_runs (h : Runs tr s) : Handed (storiesOf tr) s :=
  h.history stories (P := fun _ _ => True) (J := Handed) handed_init (fun _ _ _ _ => trivial)
    fun _ _ hs _ hJ => hJ.step hs

/-- A core leaves with its story told to the end. -/
theorem Handed.told_of_leaves (h : Handed st e.pre) (hs : steps e.pre e.act e.out e.post)
    (hleave : Leaves e j) : ∃ i w store, st j = .told i w [shownAs store w.excp] true := by
  obtain ⟨s, a, o, t⟩ := e
  obtain rfl : a = .lock j := hleave
  dsimp only at h hs
  cases steps_cases hs with
  | failed hcall => rcases hcall with ⟨_, _, h⟩ | ⟨_, h⟩ <;> cases h
  | grabbed hlook | slept hlook => rcases hlook with ⟨h, -⟩ | ⟨h, -⟩ <;> cases h
  | @left _ i hcore hfree =>
    obtain ⟨w, store, hst, -, -⟩ := (h.fits j).of_unlocked (i := i) hfree
    exact ⟨i, w, store, hst⟩

/-- What `exception_pause` returns has been raised and not been returned before. -/
theorem Handed.told_of_delivered (h : Handed st e.pre) (hs : steps e.pre e.act e.out e.post)
    (hk : delivered e = some k) :
    ∃ w, st k.2 = .told k.1 w [] false ∧ (stores e, e.out.info) = shownAs (stores e) w.excp := by
  obtain ⟨s, a, o, t⟩ := e
  dsimp only at h hs
  cases steps_cases hs with
  | failed hcall => rcases hcall with ⟨_, _, rfl⟩ | ⟨_, rfl⟩ <;> cases hk
  | ignored | controlled | raised | unlocked | left | acquired | idle | resumed => cases hk
  | slept hlook => rcases hlook with ⟨rfl, -⟩ | ⟨rfl, -⟩ <;> cases hk
  | grabbed hlook hact hwait =>
    rw [delivered_of_looks hlook rfl] at hk
    cases hk
    obtain ⟨w, hst, hw, -, -⟩ := h.found hlook.ne_serving hwait
    refine ⟨w, hst, ?_⟩
    rw [stores_of_looks hlook, shownAs, show s.waiting k = some w from hw]
    rfl

/-- While a thread waits and the handler has no exception, the next attempt of the handler finds
one, and nothing but a release of `ulock` that is still to come can keep it from that attempt. -/
theorem grab_comes (h : Runs tr s) (hwait : (s.waiting k).isSome) (hpc : s.handler ≠ .serving) :
    (exceptionGrab s).isSome ∧ (s.handler = .out ∨ ∃ store, s.handler = .woken store ∨
      s.handler = .blocked store ∧ (s.ulock = false ∨ s.cores k.2 = .raised k.1)) := by
  have hh := handed_runs h
  constructor
  · rw [Option.isSome_iff_ne_none]
    intro hnone
    rw [exceptionGrab_none hnone (hh.handled hwait)] at hwait
    cases hwait
  · cases hs : s.handler with
    | out => exact .inl rfl
    | woken store => exact .inr ⟨store, .inl rfl⟩
    | serving => exact absurd hs hpc
    | blocked store =>
      refine .inr ⟨store, .inr ⟨rfl, ?_⟩⟩
      cases hu : s.ulock with
      | false => exact .inl rfl
      | true => exact .inr (hh.blocked hs hu hwait)

/-- A call of `exception_wait` that returns at once has found its exception ignored. -/
theorem ignored_of_wait {j : Fin M} {i : Fin N} {thread : ℕ} {excp : ε} {o : Out ε}
    (hs : steps s (.wait j i thread excp) o t) (hok : o.succeeds) : s.action i = .ignore ∧ t = s := by
  cases steps_cases hs with
  | ignored hact => exact ⟨hact, rfl⟩
  | failed | raised => cases hok
  | grabbed hlook | slept hlook => simp [Looks] at hlook

/-- The hand-over of exceptions, for any interleaving of cores that raise exceptions, of calls that
set actions, and of a handler that pauses and resumes. In every state a thread waits only with an
exception that is handled. A core leaves `exception_wait` after `exception_pause` has returned its
exception once, with the information that it gave, and `exception_resume` has run after that;
where it returns at once, the exception is ignored and nothing has happened. What `exception_pause` returns was raised and has not been returned before. While the handler
waits for `ulock` and the lock is taken, every thread in the table has still to release it. -/
theorem exception_handoff (h : Runs tr s) :
    (∀ i j, (s.waiting (i, j)).isSome → s.action i = .handle) ∧
    (∀ l e r j, tr = l ++ e :: r → Leaves e j →
      ∃ i w store, storiesOf l j = .told i w [shownAs store w.excp] true) ∧
    (∀ l e r k, tr = l ++ e :: r → delivered e = some k →
      ∃ w, storiesOf l k.2 = .told k.1 w [] false ∧
        (stores e, e.out.info) = shownAs (stores e) w.excp) ∧
    (∀ store i j, s.handler = .blocked store → s.ulock = true → (s.waiting (i, j)).isSome →
      s.cores j = .raised i) ∧
    ∀ e ∈ tr, ∀ j i thread excp, e.act = .wait j i thread excp → e.out.succeeds →
      e.pre.action i = .ignore ∧ e.post = e.pre := by
  have hend := handed_runs h
  refine ⟨fun i j => hend.handled, fun l e r j htr hleave => ?_, fun l e r k htr hk => ?_,
    fun store i j => hend.blocked, fun e he j i thread excp hact hok => ?_⟩
  · subst htr
    obtain ⟨hl, hs, -⟩ := Run.at_event h
    exact (handed_runs hl).told_of_leaves hs hleave
  · subst htr
    obtain ⟨hl, hs, -⟩ := Run.at_event h
    exact (handed_runs hl).told_of_delivered hs hk
  · have hs := Run.step_of_mem h he
    rw [hact] at hs
    exact ignored_of_wait hs hok

/-- Core 1 raises exception 0 while the handler waits, and leaves when the handler has resumed it. -/
theorem exception_handoff_once :
    ∃ tr, ∃ s : State 2 2 ℕ, Runs tr s ∧ tr.map (·.act) =
        [.control 0 .handle, .pause true, .wait 1 0 7 42, .unlock 1, .acquire, .regrab, .resume, .lock 1] ∧
      ∀ l e r, tr = l ++ e :: r → Leaves e 1 →
        ∃ i w store, storiesOf l 1 = .told i w [shownAs store w.excp] true := by
  obtain ⟨tr, s, hrun, hacts, -⟩ := exists_run_of_exec (f := step) (s := (init : State 2 2 ℕ))
    [.control 0 .handle, .pause true, .wait 1 0 7 42, .unlock 1, .acquire, .regrab, .resume, .lock 1]
    (fun _ => True) (by decide)
  exact ⟨tr, s, hrun, hacts, fun l e r => (exception_handoff hrun).2.1 l e r 1⟩

end Nanvix.Pm.Exception
