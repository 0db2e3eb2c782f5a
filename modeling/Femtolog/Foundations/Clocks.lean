import Mathlib.Order.Lattice
import Mathlib.Logic.Function.Basic
import Femtolog.Foundations.RingStore

/-!
# Foundations/Clocks — accesses ordered by release and acquire

Threads access plain cells, and order their accesses by stores and loads of atomic locations.  The
**clock** of a thread counts, for each thread, the accesses that happen before whatever it does
next.  A release store leaves the clock of its thread beside the value; an acquire load joins the
clock of the store it reads from into its own; a relaxed load takes the value alone.  Two accesses
of different threads to one cell, at least one of them a write, **race** when the earlier one does
not happen before the later one.

The last part is about a ring whose cells are handed to and fro: who stays below the positions it
has acquired never races (`Trail.before_ahead`, `Trail.before_behind`).
-/

namespace Femtolog

variable {ι V : Type*}

/-- For each thread, how many of its accesses happen before what comes next. -/
abbrev Clock (ι : Type*) := ι → ℕ

/-- An access to the cells from `off` on: which one it was of its thread, and the clock the thread
had. -/
structure Access (ι : Type*) where
  thread : ι
  time : ℕ
  clock : Clock ι
  writes : Bool
  off : ℕ
  len : ℕ

/-- A store to an atomic location, with the clock it releases.  The position tells what the value
stands for; no load returns it. -/
structure Stored (ι V : Type*) where
  value : V
  clock : Clock ι
  position : ℕ

namespace Access

variable {a b : Access ι} {c p p' : ℕ}

/-- The two have a cell in common. -/
def Meets (a b : Access ι) : Prop := max a.off b.off < min (a.off + a.len) (b.off + b.len)

/-- **The accesses race**, the first one being the earlier. -/
def Races (a b : Access ι) : Prop :=
  a.thread ≠ b.thread ∧ (a.writes = true ∨ b.writes = true) ∧ a.Meets b ∧ b.clock a.thread ≤ a.time

instance [DecidableEq ι] (a b : Access ι) : Decidable (a.Races b) :=
  inferInstanceAs (Decidable (_ ∧ _ ∧ _ < _ ∧ _))

theorem meets_iff :
    a.Meets b ↔ ∃ x, (a.off ≤ x ∧ x < a.off + a.len) ∧ b.off ≤ x ∧ x < b.off + b.len := by
  rw [Meets, max_lt_iff, lt_min_iff, lt_min_iff]
  constructor
  · rintro ⟨⟨h1, h2⟩, h3, h4⟩
    exact ⟨max a.off b.off, by omega, by omega⟩
  · rintro ⟨x, h1, h2⟩
    omega

/-- The access is to the positions from `p` on, in a ring of `c` cells. -/
def At (c p : ℕ) (a : Access ι) : Prop := a.off = p % c ∧ p % c + a.len ≤ c

/-- The cell of a position inside the access. -/
theorem At.mod_mem {u : ℕ} (h : a.At c p) (hlo : p ≤ u) (hhi : u < p + a.len) :
    a.off ≤ u % c ∧ u % c < a.off + a.len := by
  obtain ⟨hoff, hseg⟩ := h
  obtain ⟨j, rfl⟩ := Nat.exists_eq_add_of_le hlo
  rw [add_mod_of_segment hseg (by omega), hoff]
  omega

/-- **Accesses that meet** do so at positions a whole number of turns apart. -/
theorem At.meets (ha : a.At c p) (hb : b.At c p') (h : a.Meets b) :
    ∃ u v, (p ≤ u ∧ u < p + a.len) ∧ (p' ≤ v ∧ v < p' + b.len) ∧ u % c = v % c := by
  obtain ⟨x, ⟨h1, h2⟩, h3, h4⟩ := meets_iff.mp h
  obtain ⟨haoff, haseg⟩ := ha
  obtain ⟨hboff, hbseg⟩ := hb
  refine ⟨p + (x - a.off), p' + (x - b.off), by omega, by omega, ?_⟩
  rw [add_mod_of_segment haseg (by omega), add_mod_of_segment hbseg (by omega)]
  omega

end Access

/-! ## Races of a whole run -/

/-- **No two accesses race.** -/
def RaceFree (log : List (Access ι)) : Prop := log.Pairwise fun a b => ¬ a.Races b

instance [DecidableEq ι] (log : List (Access ι)) : Decidable (RaceFree log) :=
  inferInstanceAs (Decidable (log.Pairwise _))

theorem raceFree_snoc {log : List (Access ι)} {b : Access ι} :
    RaceFree (log ++ [b]) ↔ RaceFree log ∧ ∀ a ∈ log, ¬ a.Races b := by
  simp [RaceFree, List.pairwise_append]

/-- An access that comes after those of the other threads in its cells races with none. -/
theorem RaceFree.snoc {log : List (Access ι)} {b : Access ι} (h : RaceFree log)
    (hbefore : ∀ a ∈ log, a.thread ≠ b.thread → a.Meets b → a.time < b.clock a.thread) :
    RaceFree (log ++ [b]) := by
  refine raceFree_snoc.mpr ⟨h, fun a ha hraces => ?_⟩
  obtain ⟨hne, -, hmeets, hle⟩ := hraces
  exact absurd (hbefore a ha hne hmeets) (Nat.not_lt.mpr hle)

/-- What the threads know of each other, and the accesses so far. -/
structure Timeline (ι : Type*) where
  clock : ι → Clock ι := fun _ _ => 0
  log : List (Access ι) := []

namespace Timeline

variable [DecidableEq ι] {o : Timeline ι} {t t' : ι}

/-- Thread `t` accesses the cells from `off` on. -/
def access (o : Timeline ι) (t : ι) (writes : Bool) (off len : ℕ) : Timeline ι where
  clock := Function.update o.clock t (Function.update (o.clock t) t (o.clock t t + 1))
  log := o.log ++ [⟨t, o.clock t t, o.clock t, writes, off, len⟩]

/-- Thread `t` loads, with acquire, what was stored with the clock `c`. -/
def acquire (o : Timeline ι) (t : ι) (c : Clock ι) : Timeline ι where
  clock := Function.update o.clock t (o.clock t ⊔ c)
  log := o.log

@[simp] theorem clock_acquire_self (c : Clock ι) (x : ι) :
    (o.acquire t c).clock t x = max (o.clock t x) (c x) := by simp [acquire]

theorem clock_acquire_of_ne (h : t' ≠ t) (c : Clock ι) : (o.acquire t c).clock t' = o.clock t' := by
  simp [acquire, h]

theorem clock_le_acquire (c : Clock ι) (x : ι) : o.clock t' x ≤ (o.acquire t c).clock t' x := by
  by_cases h : t' = t
  · subst h
    exact (clock_acquire_self c x).symm ▸ le_max_left _ _
  · rw [clock_acquire_of_ne h]

@[simp] theorem clock_access_self (w : Bool) (off len : ℕ) :
    (o.access t w off len).clock t t = o.clock t t + 1 := by simp [access]

/-- An access is news to its own thread only. -/
theorem clock_access_of_ne {x : ι} (h : x ≠ t) (w : Bool) (off len : ℕ) :
    (o.access t w off len).clock t' x = o.clock t' x := by
  by_cases ht : t' = t
  · subst ht
    simp [access, h]
  · simp [access, ht]

theorem clock_le_access (w : Bool) (off len : ℕ) (x : ι) :
    o.clock t' x ≤ (o.access t w off len).clock t' x := by
  by_cases ht : t' = t
  · subst ht
    by_cases hx : x = t'
    · subst hx
      simp
    · rw [clock_access_of_ne hx]
  · simp [access, ht]

end Timeline

/-! ## Stores that name positions -/

/-- **A location only thread `t` stores to**: the values name positions of a stream that do not go
down, and neither does what the thread releases with them. -/
structure Rising (name : ℕ → V) (t : ι) (stores : List (Stored ι V)) (last time : ℕ) :
    Prop where
  value_eq : ∀ m ∈ stores, m.value = name m.position
  le_last : ∀ m ∈ stores, m.position ≤ last ∧ m.clock t ≤ time
  sorted : stores.Pairwise fun m m' => m.position ≤ m'.position ∧ m.clock t ≤ m'.clock t

namespace Rising

variable {name : ℕ → V} {t : ι} {stores : List (Stored ι V)} {last time : ℕ}

theorem mono {last' time' : ℕ} (h : Rising name t stores last time) (hlast : last ≤ last')
    (htime : time ≤ time') : Rising name t stores last' time' :=
  { h with
    le_last := fun m hm => ⟨(h.le_last m hm).1.trans hlast, (h.le_last m hm).2.trans htime⟩ }

/-- The first store. -/
theorem singleton {m : Stored ι V} (hvalue : m.value = name m.position) :
    Rising name t [m] m.position (m.clock t) where
  value_eq m' hm' := List.mem_singleton.mp hm' ▸ hvalue
  le_last m' hm' := by
    obtain rfl := List.mem_singleton.mp hm'
    exact ⟨le_refl _, le_refl _⟩
  sorted := List.pairwise_singleton _ _

/-- One more store, of the position reached. -/
theorem snoc (h : Rising name t stores last time) {m : Stored ι V}
    (hvalue : m.value = name m.position) (hlast : last ≤ m.position) (htime : m.clock t = time) :
    Rising name t (stores ++ [m]) m.position time where
  value_eq m' hm' := by
    rcases List.mem_append.mp hm' with hm' | hm'
    · exact h.value_eq m' hm'
    · exact List.mem_singleton.mp hm' ▸ hvalue
  le_last m' hm' := by
    rcases List.mem_append.mp hm' with hm' | hm'
    · exact ⟨(h.le_last m' hm').1.trans hlast, (h.le_last m' hm').2⟩
    · obtain rfl := List.mem_singleton.mp hm'
      exact ⟨le_refl _, htime.le⟩
  sorted := by
    refine List.pairwise_append.mpr
      ⟨h.sorted, List.pairwise_singleton _ _, fun m' hm' m'' hm'' => ?_⟩
    obtain rfl := List.mem_singleton.mp hm''
    exact ⟨(h.le_last m' hm').1.trans hlast, htime ▸ (h.le_last m' hm').2⟩

/-- A store that is not older names a position that is not lower. -/
theorem le_of_le (h : Rising name t stores last time) {i j : ℕ} {m m' : Stored ι V}
    (hm : stores[i]? = some m) (hm' : stores[j]? = some m') (hij : i ≤ j) :
    m.position ≤ m'.position ∧ m.clock t ≤ m'.clock t := by
  obtain ⟨hi, rfl⟩ := List.getElem?_eq_some_iff.mp hm
  obtain ⟨hj, rfl⟩ := List.getElem?_eq_some_iff.mp hm'
  rcases Nat.lt_or_ge i j with hlt | hge
  · exact List.pairwise_iff_getElem.mp h.sorted i j hi hj hlt
  · obtain rfl : i = j := by omega
    exact ⟨le_refl _, le_refl _⟩

end Rising

/-- **The value is of a store acquired**, by a thread that has the clock `clock` and has loaded no
store of thread `t` newer than number `seen`; its position is not below `low`. -/
def Acquired (stores : List (Stored ι V)) (seen : ℕ) (value : V) (t : ι) (clock : Clock ι)
    (low : ℕ) : Prop :=
  ∃ i m, i ≤ seen ∧ stores[i]? = some m ∧ m.value = value ∧ m.clock t ≤ clock t ∧ low ≤ m.position

theorem Acquired.mono {stores : List (Stored ι V)} {seen seen' low : ℕ} {value : V} {t : ι}
    {clock clock' : Clock ι} (h : Acquired stores seen value t clock low) (hseen : seen ≤ seen')
    (hclock : clock t ≤ clock' t) (more : List (Stored ι V)) :
    Acquired (stores ++ more) seen' value t clock' low := by
  obtain ⟨i, m, hi, hm, hvalue, hle, hlow⟩ := h
  obtain ⟨hlt, _⟩ := List.getElem?_eq_some_iff.mp hm
  exact ⟨i, m, hi.trans hseen, (List.getElem?_append_left hlt).trans hm, hvalue, hle.trans hclock,
    hlow⟩

/-- **The release stores of thread `t`**, to whatever locations: a later one has the higher position
and the higher clock. -/
structure Nested (t : ι) (stores : List (Stored ι V)) (last time : ℕ) : Prop where
  le_last : ∀ m ∈ stores, m.position ≤ last ∧ m.clock t ≤ time
  total : ∀ m ∈ stores, ∀ m' ∈ stores, (m.position ≤ m'.position ∧ m.clock t ≤ m'.clock t)
    ∨ m'.position ≤ m.position ∧ m'.clock t ≤ m.clock t

namespace Nested

variable {t : ι} {stores stores' : List (Stored ι V)} {last last' time time' : ℕ}

theorem mono (h : Nested t stores last time) (hlast : last ≤ last') (htime : time ≤ time') :
    Nested t stores last' time' :=
  { h with
    le_last := fun m hm => ⟨(h.le_last m hm).1.trans hlast, (h.le_last m hm).2.trans htime⟩ }

/-- One more store, of the position reached. -/
theorem release (h : Nested t stores last time) {m : Stored ι V}
    (hsub : ∀ m' ∈ stores', m' ∈ stores ∨ m' = m) (hlast : last ≤ m.position)
    (htime : m.clock t = time) : Nested t stores' m.position time where
  le_last m' hm' := by
    obtain hold | rfl := hsub m' hm'
    · exact ⟨(h.le_last m' hold).1.trans hlast, (h.le_last m' hold).2⟩
    · exact ⟨le_refl _, htime.le⟩
  total m' hm' m'' hm'' := by
    obtain hold' | rfl := hsub m' hm'
    · obtain hold'' | rfl := hsub m'' hm''
      · exact h.total m' hold' m'' hold''
      · exact .inl ⟨(h.le_last m' hold').1.trans hlast, htime ▸ (h.le_last m' hold').2⟩
    · obtain hold'' | rfl := hsub m'' hm''
      · exact .inr ⟨(h.le_last m'' hold'').1.trans hlast, htime ▸ (h.le_last m'' hold'').2⟩
      · exact .inl ⟨le_refl _, le_refl _⟩

/-- **Two stores acquired** are acquired by the later one of them. -/
theorem max_mem (h : Nested t stores last time) {m m' : Stored ι V} (hm : m ∈ stores)
    (hm' : m' ∈ stores) : ∃ m'' ∈ stores, max (m.clock t) (m'.clock t) = m''.clock t
      ∧ max m.position m'.position = m''.position := by
  rcases h.total m hm m' hm' with ⟨hpos, hclock⟩ | ⟨hpos, hclock⟩
  · exact ⟨m', hm', max_eq_right hclock, max_eq_right hpos⟩
  · exact ⟨m, hm, max_eq_left hclock, max_eq_left hpos⟩

end Nested

/-! ## Trails through a ring -/

section Trails

variable {o : Timeline ι} {t : ι} {stores : List (Stored ι V)} {c bound : ℕ}

/-- **The trail of thread `t` in a ring of `c` cells**: its accesses are to positions below `bound`,
and one to a position below a store was made before the store. -/
structure Trail (c : ℕ) (t : ι) (o : Timeline ι) (stores : List (Stored ι V)) (bound : ℕ) :
    Prop where
  laid : ∀ a ∈ o.log, a.thread = t → ∃ p, a.At c p ∧ p + a.len ≤ bound ∧
    ∀ m ∈ stores, p < m.position → a.time < m.clock t
  time_lt : ∀ a ∈ o.log, a.thread = t → a.time < o.clock t t

namespace Trail

theorem mono {bound' : ℕ} (h : Trail c t o stores bound) (hbound : bound ≤ bound') :
    Trail c t o stores bound' where
  laid a ha hat := by
    obtain ⟨p, hp, hle, hbefore⟩ := h.laid a ha hat
    exact ⟨p, hp, hle.trans hbound, hbefore⟩
  time_lt := h.time_lt

/-- **A release store of the thread** comes after all its accesses. -/
theorem release (h : Trail c t o stores bound) {stores' : List (Stored ι V)} {m : Stored ι V}
    (hsub : ∀ m' ∈ stores', m' ∈ stores ∨ m' = m) (hm : m.clock t = o.clock t t) :
    Trail c t o stores' bound where
  laid a ha hthread := by
    obtain ⟨p, hp, hle, hbefore⟩ := h.laid a ha hthread
    refine ⟨p, hp, hle, fun m' hm' hlt => ?_⟩
    obtain hold | rfl := hsub m' hm'
    · exact hbefore m' hold hlt
    · exact hm ▸ h.time_lt a ha hthread
  time_lt := h.time_lt

/-- **An access ahead of the trail** comes after everything of it in the same cells, when it is less
than a turn ahead of a store its thread has acquired. -/
theorem before_ahead (h : Trail c t o stores bound) {m : Stored ι V} (hm : m ∈ stores) {t' : ι}
    (hclock : m.clock t ≤ o.clock t' t) {b : Access ι} {p' : ℕ} (hb : b.At c p')
    (hahead : bound ≤ p') (hturn : p' + b.len ≤ m.position + c) {a : Access ι} (ha : a ∈ o.log)
    (hthread : a.thread = t) (hmeets : a.Meets b) : a.time < o.clock t' t := by
  obtain ⟨p, hp, hle, hbefore⟩ := h.laid a ha hthread
  obtain ⟨u, v, hu, hv, huv⟩ := hp.meets hb hmeets
  have hfar : u + c ≤ v := by
    by_contra hnear
    exact mod_ne_of_lt_of_lt_add (by omega) (Nat.lt_of_not_le hnear) huv
  exact (hbefore m hm (by omega)).trans_le hclock

/-- **An access behind the trail's end** comes after everything of the trail in the same cells, when
the trail is less than a turn ahead of it and a store its thread has acquired has passed it. -/
theorem before_behind (h : Trail c t o stores bound) {m : Stored ι V} (hm : m ∈ stores) {t' : ι}
    (hclock : m.clock t ≤ o.clock t' t) {b : Access ι} {p' : ℕ} (hb : b.At c p')
    (hturn : bound ≤ p' + c) (hpassed : p' + b.len ≤ m.position) {a : Access ι} (ha : a ∈ o.log)
    (hthread : a.thread = t) (hmeets : a.Meets b) : a.time < o.clock t' t := by
  obtain ⟨p, hp, hle, hbefore⟩ := h.laid a ha hthread
  obtain ⟨u, v, hu, hv, huv⟩ := hp.meets hb hmeets
  have hnear : u ≤ v := by
    by_contra hfar
    exact mod_ne_of_lt_of_lt_add (Nat.lt_of_not_le hfar) (by omega) huv.symm
  exact (hbefore m hm (by omega)).trans_le hclock

variable [DecidableEq ι] {t' : ι}

/-- **An access by the thread itself**, to positions no store has passed yet. -/
theorem access (h : Trail c t o stores bound) {writes : Bool} {off len p : ℕ}
    (hat : off = p % c ∧ p % c + len ≤ c) (hbound : p + len ≤ bound)
    (hstores : ∀ m ∈ stores, m.position ≤ p) :
    Trail c t (o.access t writes off len) stores bound where
  laid a ha hthread := by
    rcases List.mem_append.mp ha with ha | ha
    · exact h.laid a ha hthread
    · obtain rfl := List.mem_singleton.mp ha
      exact ⟨p, hat, hbound, fun m hm hlt => absurd (hstores m hm) (by omega)⟩
  time_lt a ha hthread := by
    rw [Timeline.clock_access_self]
    rcases List.mem_append.mp ha with ha | ha
    · exact Nat.lt_succ_of_lt (h.time_lt a ha hthread)
    · obtain rfl := List.mem_singleton.mp ha
      exact Nat.lt_succ_self _

/-- An access by another thread. -/
theorem access_of_ne (h : Trail c t o stores bound) (hne : t' ≠ t) (writes : Bool) (off len : ℕ) :
    Trail c t (o.access t' writes off len) stores bound := by
  have hold {a : Access ι} (ha : a ∈ (o.access t' writes off len).log) (hthread : a.thread = t) :
      a ∈ o.log := by
    rcases List.mem_append.mp ha with ha | ha
    · exact ha
    · obtain rfl := List.mem_singleton.mp ha
      exact absurd hthread hne
  exact
    { laid := fun a ha hthread => h.laid a (hold ha hthread) hthread
      time_lt := fun a ha hthread =>
        (h.time_lt a (hold ha hthread) hthread).trans_le (Timeline.clock_le_access _ _ _ _) }

theorem acquire (h : Trail c t o stores bound) (t' : ι) (clock : Clock ι) :
    Trail c t (o.acquire t' clock) stores bound where
  laid := h.laid
  time_lt a ha hthread := (h.time_lt a ha hthread).trans_le (Timeline.clock_le_acquire _ _)

end Trail

/-- **The writes of thread `t` reach every position below `bound`**, each after the stores that had
not passed the position. -/
def Written (c : ℕ) (t : ι) (o : Timeline ι) (stores : List (Stored ι V)) (bound : ℕ) : Prop :=
  ∀ u < bound, ∀ m ∈ stores, m.position ≤ u → ∃ a ∈ o.log, a.thread = t ∧ a.writes = true
    ∧ (a.off ≤ u % c ∧ u % c < a.off + a.len) ∧ m.clock t ≤ a.time

namespace Written

/-- A store of the position reached has passed all of them. -/
theorem release (h : Written c t o stores bound) {stores' : List (Stored ι V)} {m : Stored ι V}
    (hsub : ∀ m' ∈ stores', m' ∈ stores ∨ m' = m) (hm : bound ≤ m.position) :
    Written c t o stores' bound := by
  intro u hu m' hm' hle
  obtain hold | rfl := hsub m' hm'
  · exact h u hu m' hold hle
  · omega

/-- **An access beyond what its thread has acquired races.** -/
theorem races (h : Written c t o stores bound) {m : Stored ι V} (hm : m ∈ stores) {b : Access ι}
    (hne : t ≠ b.thread) (hclock : b.clock t = m.clock t) {p u : ℕ} (hb : b.At c p) (hlo : p ≤ u)
    (hhi : u < p + b.len) (hu : u < bound) (hbeyond : m.position ≤ u) :
    ∃ a ∈ o.log, a.Races b := by
  obtain ⟨a, ha, rfl, hwrites, hcell, htime⟩ := h u hu m hm hbeyond
  exact ⟨a, ha, hne, .inl hwrites,
    Access.meets_iff.mpr ⟨u % c, hcell, hb.mod_mem hlo hhi⟩, hclock ▸ htime⟩

variable [DecidableEq ι]

/-- A write of the next positions. -/
theorem access (h : Written c t o stores bound) {off len : ℕ}
    (hat : off = bound % c ∧ bound % c + len ≤ c) (hclock : ∀ m ∈ stores, m.clock t ≤ o.clock t t) :
    Written c t (o.access t true off len) stores (bound + len) := by
  intro u hu m hm hle
  rcases Nat.lt_or_ge u bound with hlt | hge
  · obtain ⟨a, ha, hrest⟩ := h u hlt m hm hle
    exact ⟨a, List.mem_append_left _ ha, hrest⟩
  · have hown : Access.At c bound ⟨t, o.clock t t, o.clock t, true, off, len⟩ := hat
    exact ⟨_, List.mem_append_right _ (List.mem_singleton_self _), rfl, rfl,
      hown.mod_mem hge hu, hclock m hm⟩

theorem access_of_any (h : Written c t o stores bound) (t' : ι) (writes : Bool) (off len : ℕ) :
    Written c t (o.access t' writes off len) stores bound := by
  intro u hu m hm hle
  obtain ⟨a, ha, hrest⟩ := h u hu m hm hle
  exact ⟨a, List.mem_append_left _ ha, hrest⟩

end Written

end Trails

end Femtolog
