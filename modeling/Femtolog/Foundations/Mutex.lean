import Mathlib.Logic.Function.Basic
import Femtolog.Foundations.Runs

/-!
# Foundations/Mutex — writers that take turns under a lock

Each thread has calls to make, and makes each between the lock and the unlock of its mutex.  A call
passes its cells on one by one, and those of threads with different mutexes may come in between.
With one mutex for all they do not (`whole_of_reaches`): what comes out is the calls, one after the
other, and those of a thread in its order.
-/

namespace Femtolog

/-- Writers with their mutexes: who holds a mutex, the calls each thread has yet to make, what is
left of the one it is in, and what has come out. -/
structure Writers (ι κ α : Type*) where
  holder : κ → Option ι
  pending : ι → List (List α)
  current : ι → Option (List α)
  out : List α

namespace Writers

variable {ι κ α : Type*}

/-- No thread has begun. -/
def start (pending : ι → List (List α)) : Writers ι κ α where
  holder _ := none
  pending := pending
  current _ := none
  out := []

/-- What a thread does next. -/
inductive Turn (ι : Type*)
  | lock (i : ι)
  | transfer (i : ι)
  | unlock (i : ι)

variable [DecidableEq ι] {mutex : ι → κ} {w w' : Writers ι κ α}

section Steps

variable [DecidableEq κ]

/-- A step of a thread: it takes its mutex if nobody holds it, passes a cell of its call on, and
gives the mutex back when the call is done. -/
def step (mutex : ι → κ) (w : Writers ι κ α) : Turn ι → Option (Writers ι κ α)
  | .lock i =>
    match w.current i, w.pending i with
    | none, call :: calls =>
      if w.holder (mutex i) = none then
        some { w with
          holder := Function.update w.holder (mutex i) (some i)
          pending := Function.update w.pending i calls
          current := Function.update w.current i (some call) }
      else none
    | _, _ => none
  | .transfer i =>
    match w.current i with
    | some (x :: rest) =>
      some { w with current := Function.update w.current i (some rest), out := w.out ++ [x] }
    | _ => none
  | .unlock i =>
    match w.current i with
    | some [] =>
      some { w with
        holder := Function.update w.holder (mutex i) none
        current := Function.update w.current i none }
    | _ => none

/-- What a step is a step of. -/
inductive Steps (mutex : ι → κ) (w : Writers ι κ α) : Turn ι → Writers ι κ α → Prop
  | lock {i : ι} {call : List α} {calls : List (List α)} (hidle : w.current i = none)
      (hpending : w.pending i = call :: calls) (hfree : w.holder (mutex i) = none) :
    Steps mutex w (.lock i)
      { w with
        holder := Function.update w.holder (mutex i) (some i)
        pending := Function.update w.pending i calls
        current := Function.update w.current i (some call) }
  | transfer {i : ι} {x : α} {rest : List α} (hcurrent : w.current i = some (x :: rest)) :
    Steps mutex w (.transfer i)
      { w with current := Function.update w.current i (some rest), out := w.out ++ [x] }
  | unlock {i : ι} (hcurrent : w.current i = some []) :
    Steps mutex w (.unlock i)
      { w with
        holder := Function.update w.holder (mutex i) none
        current := Function.update w.current i none }

theorem steps_of_step {a : Turn ι} (h : w.step mutex a = some w') : w.Steps mutex a w' := by
  cases a with
  | lock i =>
    rw [step] at h
    split at h
    · rename_i call calls hidle hpending
      split_ifs at h with hfree
      exact Option.some.inj h ▸ .lock hidle hpending hfree
    · cases h
  | transfer i =>
    rw [step] at h
    split at h
    · rename_i x rest hcurrent
      exact Option.some.inj h ▸ .transfer hcurrent
    · cases h
  | unlock i =>
    rw [step] at h
    split at h
    · rename_i hcurrent
      exact Option.some.inj h ▸ .unlock hcurrent
    · cases h

end Steps

/-! ## One mutex -/

/-- The calls of a thread among those that have been begun. -/
def callsOf (begun : List (ι × List α)) (i : ι) : List (List α) :=
  (begun.filter (·.1 = i)).map Prod.snd

/-- A call that is begun is the last of its thread, and concerns no other. -/
theorem callsOf_append (begun : List (ι × List α)) (i j : ι) (call : List α) :
    callsOf (begun ++ [(i, call)]) j
      = if i = j then callsOf begun j ++ [call] else callsOf begun j := by
  rw [callsOf, callsOf, List.filter_append, List.map_append]
  split_ifs with hij <;> simp [hij]

/-- **What has come out is whole calls**, and the start of the one that is being made. -/
inductive Progress (mutex : ι → κ) (w : Writers ι κ α) (begun : List (ι × List α)) : Prop
  | resting (hidle : ∀ i, w.current i = none) (hout : w.out = (begun.map Prod.snd).flatten)
  | writing (i : ι) (earlier : List (ι × List α)) (written rest : List α)
      (hbegun : begun = earlier ++ [(i, written ++ rest)]) (hheld : w.holder (mutex i) = some i)
      (hcurrent : w.current i = some rest) (hothers : ∀ j, j ≠ i → w.current j = none)
      (hout : w.out = (earlier.map Prod.snd).flatten ++ written)

/-- **The calls of each thread** are those that have been begun, in their order, and then those it
has yet to make; what has come out of them is whole. -/
structure Whole (mutex : ι → κ) (calls : ι → List (List α)) (w : Writers ι κ α)
    (begun : List (ι × List α)) : Prop where
  calls_eq : ∀ i, calls i = callsOf begun i ++ w.pending i
  progress : w.Progress mutex begun

variable {calls : ι → List (List α)} {begun : List (ι × List α)}

theorem whole_start (mutex : ι → κ) (calls : ι → List (List α)) :
    Whole mutex calls (start calls) [] :=
  ⟨fun _ => rfl, .resting (fun _ => rfl) rfl⟩

/-- What has come out starts the calls that have been begun. -/
theorem Whole.out_starts (h : Whole mutex calls w begun) :
    w.out <+: (begun.map Prod.snd).flatten := by
  cases h.progress with
  | resting _ hout => exact hout ▸ List.prefix_refl _
  | writing i earlier written rest hbegun _ _ _ hout =>
    refine ⟨rest, ?_⟩
    rw [hout, hbegun, List.map_append, List.flatten_append]
    simp

/-- All calls have been made. -/
def Finished (w : Writers ι κ α) : Prop := ∀ i, w.pending i = [] ∧ w.current i = none

/-- **What has come out in the end** is all calls, one after the other, and those of a thread in its
order. -/
theorem Whole.finished (h : Whole mutex calls w begun) (hfinished : w.Finished) :
    w.out = (begun.map Prod.snd).flatten ∧ ∀ i, callsOf begun i = calls i := by
  refine ⟨?_, fun i => ?_⟩
  · cases h.progress with
    | resting _ hout => exact hout
    | writing i _ _ _ _ _ hcurrent _ _ =>
      rw [(hfinished i).2] at hcurrent
      cases hcurrent
  · rw [h.calls_eq, (hfinished i).1, List.append_nil]

/-- A call in front is the first of its thread, and concerns no other. -/
theorem callsOf_cons (begun : List (ι × List α)) (i j : ι) (call : List α) :
    callsOf ((i, call) :: begun) j
      = if i = j then call :: callsOf begun j else callsOf begun j := by
  rw [callsOf, callsOf, List.filter_cons]
  by_cases hij : i = j <;> simp [hij]

/-- The labels of a thread. -/
def labelsOf {β : Type*} (labelled : List (ι × β)) (i : ι) : List β :=
  (labelled.filter (·.1 = i)).map Prod.snd

theorem labelsOf_cons {β : Type*} (labelled : List (ι × β)) (i j : ι) (b : β) :
    labelsOf ((i, b) :: labelled) j
      = if i = j then b :: labelsOf labelled j else labelsOf labelled j := by
  rw [labelsOf, labelsOf, List.filter_cons]
  by_cases hij : i = j <;> simp [hij]

/-- **Calls that are made of labels** can be labelled, each thread with its labels in order. -/
theorem exists_labels {β : Type*} (cells : β → List α) (begun : List (ι × List α))
    (labels : ι → List β) (h : ∀ i, callsOf begun i <+: (labels i).map cells) :
    ∃ labelled : List (ι × β), begun = labelled.map (fun p => (p.1, cells p.2)) ∧
      ∀ i, callsOf begun i = (labelsOf labelled i).map cells ∧
        labelsOf labelled i <+: labels i := by
  induction begun generalizing labels with
  | nil => exact ⟨[], rfl, fun i => ⟨rfl, List.nil_prefix⟩⟩
  | cons head begun ih =>
    obtain ⟨i, call⟩ := head
    have hhead := h i
    rw [callsOf_cons, if_pos rfl] at hhead
    cases hlabels : labels i with
    | nil =>
      rw [hlabels, List.map_nil, List.prefix_nil] at hhead
      cases hhead
    | cons b bs =>
      rw [hlabels, List.map_cons, List.cons_prefix_cons] at hhead
      obtain ⟨rfl, hrest⟩ := hhead
      obtain ⟨labelled, rfl, hlabelled⟩ := ih (Function.update labels i bs) fun j => by
        have hj := h j
        rw [callsOf_cons] at hj
        by_cases hij : i = j
        · subst hij
          rwa [Function.update_self]
        · rwa [if_neg hij, ← Function.update_of_ne (Ne.symm hij) bs labels] at hj
      refine ⟨(i, b) :: labelled, rfl, fun j => ?_⟩
      obtain ⟨hcalls, hprefix⟩ := hlabelled j
      rw [callsOf_cons, labelsOf_cons, hcalls]
      by_cases hij : i = j
      · subst hij
        rw [Function.update_self] at hprefix
        rw [if_pos rfl, if_pos rfl, hlabels, List.cons_prefix_cons]
        exact ⟨rfl, rfl, hprefix⟩
      · rw [Function.update_of_ne (Ne.symm hij)] at hprefix
        rw [if_neg hij, if_neg hij]
        exact ⟨rfl, hprefix⟩

variable [DecidableEq κ]

/-- **A step keeps the calls whole**, if there is one mutex for all. -/
theorem Whole.step (h : Whole mutex calls w begun) (hone : ∀ i j, mutex i = mutex j) {a : Turn ι}
    (hs : w.step mutex a = some w') : ∃ begun', Whole mutex calls w' begun' := by
  cases steps_of_step hs with
  | @lock i call rest hidle hpending hfree =>
    refine ⟨begun ++ [(i, call)], fun j => ?_, ?_⟩
    · change calls j = _ ++ Function.update w.pending i rest j
      rw [callsOf_append, h.calls_eq j]
      by_cases hij : i = j
      · subst hij
        rw [if_pos rfl, Function.update_self, hpending, List.append_assoc, List.singleton_append]
      · rw [if_neg hij, Function.update_of_ne (Ne.symm hij)]
    · cases h.progress with
      | resting hnone hout =>
        refine .writing i begun [] call rfl (Function.update_self ..) (Function.update_self ..)
          (fun j hj => (Function.update_of_ne hj ..).trans (hnone j)) ?_
        rw [List.append_nil]
        exact hout
      | writing j _ _ _ _ hheld _ _ _ =>
        -- the mutex would be held
        rw [hone i j, hheld] at hfree
        cases hfree
  | @transfer i x rest hcurrent =>
    refine ⟨begun, h.calls_eq, ?_⟩
    cases h.progress with
    | resting hnone _ =>
      rw [hnone] at hcurrent
      cases hcurrent
    | writing j earlier written rest' hbegun hheld hcurrent' hothers hout =>
      obtain rfl : i = j := by
        by_contra hij
        rw [hothers i hij] at hcurrent
        cases hcurrent
      obtain rfl : rest' = x :: rest := Option.some.inj (hcurrent'.symm.trans hcurrent)
      refine .writing i earlier (written ++ [x]) rest ?_ hheld (Function.update_self ..)
        (fun j hj => (Function.update_of_ne hj ..).trans (hothers j hj)) ?_
      · rw [hbegun, List.append_assoc, List.singleton_append]
      · change w.out ++ [x] = _
        rw [hout, List.append_assoc]
  | @unlock i hcurrent =>
    refine ⟨begun, h.calls_eq, ?_⟩
    cases h.progress with
    | resting hnone _ =>
      rw [hnone] at hcurrent
      cases hcurrent
    | writing j earlier written rest hbegun _ hcurrent' hothers hout =>
      obtain rfl : i = j := by
        by_contra hij
        rw [hothers i hij] at hcurrent
        cases hcurrent
      obtain rfl : rest = [] := Option.some.inj (hcurrent'.symm.trans hcurrent)
      refine .resting (fun j => ?_) ?_
      · by_cases hj : j = i
        · exact hj ▸ Function.update_self ..
        · exact (Function.update_of_ne hj ..).trans (hothers j hj)
      · change w.out = _
        rw [hout, hbegun, List.map_append, List.flatten_append]
        simp

/-- **A run keeps the calls whole.** -/
theorem whole_of_reaches (hone : ∀ i j, mutex i = mutex j) {guard : Writers ι κ α → Turn ι → Prop}
    (hrun : Reaches (step mutex) guard (start calls) w) : ∃ begun, Whole mutex calls w begun :=
  hrun.invariant (I := fun w => ∃ begun, Whole mutex calls w begun) ⟨[], whole_start mutex calls⟩
    fun ⟨_, h⟩ _ hs => h.step hone hs

end Writers

end Femtolog
