import Mathlib.Data.List.Basic
import Mathlib.Tactic.SplitIfs

/-!
# Foundations/Machine — objects that answer calls, and threads inside a call

A sequential object is a partial function `m : σ → ι → Option (ρ × σ)`: the reply to a call, and the
state after it; `none` is a call that never returns.  `answers` lets it answer calls in turn, and
`Explains` says that a history of calls and replies, in the order in which the calls returned, is
one the object could have given.

A concurrent implementation takes a call in steps.  A step either goes on at a program counter or
returns a reply (`Next`); a `Thread` is between calls or inside one, and remembers whether the steps
of the call so far have touched what the threads share.
-/

namespace Femtolog

variable {σ τ ι ρ Pc : Type}

/-! ## Calls in turn -/

/-- The replies of the object `m` to calls in turn, and the state after them. -/
def answers (m : σ → ι → Option (ρ × σ)) : σ → List ι → Option (List ρ × σ)
  | s, [] => some ([], s)
  | s, i :: is => (m s i).bind fun a => (answers m a.2 is).map fun b => (a.1 :: b.1, b.2)

/-- **A simulation carries over to calls in turn** — an object that answers each call as a second
one does, related states to related states, gives the same replies. -/
theorem answers_of_simulation {m : σ → ι → Option (ρ × σ)} {n : τ → ι → Option (ρ × τ)}
    {valid : ι → Prop} {R : σ → τ → Prop}
    (hsim : ∀ {s t i}, R s t → valid i →
      ∃ r s' t', m s i = some (r, s') ∧ n t i = some (r, t') ∧ R s' t')
    {is : List ι} (hv : ∀ i ∈ is, valid i) {s : σ} {t : τ} (h : R s t) :
    ∃ rs s' t', answers m s is = some (rs, s') ∧ answers n t is = some (rs, t') ∧ R s' t' := by
  induction is generalizing s t with
  | nil => exact ⟨[], s, t, rfl, rfl, h⟩
  | cons i is ih =>
    obtain ⟨r, s₁, t₁, hm, hn, h₁⟩ := hsim h (hv i List.mem_cons_self)
    obtain ⟨rs, s', t', hms, hnt, h'⟩ := ih (fun j hj => hv j (List.mem_cons_of_mem i hj)) h₁
    refine ⟨r :: rs, s', t', ?_, ?_, h'⟩
    · rw [answers, hm, Option.bind_some, hms, Option.map_some]
    · rw [answers, hn, Option.bind_some, hnt, Option.map_some]

/-! ## Histories -/

/-- **The history `h` is explained by the object `m`**: started at `s₀`, it can give these replies
to these calls, and is then in the state `s`. -/
inductive Explains (m : σ → ι → Option (ρ × σ)) (s₀ : σ) : List (ι × ρ) → σ → Prop
  | nil : Explains m s₀ [] s₀
  | snoc {h : List (ι × ρ)} {s s' : σ} {i : ι} {r : ρ} (hh : Explains m s₀ h s)
      (hm : m s i = some (r, s')) : Explains m s₀ (h ++ [(i, r)]) s'

/-- Every entry of an explained history is the object's reply in the state before it. -/
theorem Explains.split {m : σ → ι → Option (ρ × σ)} {s₀ s : σ} {h before after : List (ι × ρ)}
    {i : ι} {r : ρ} (hh : Explains m s₀ h s) (heq : h = before ++ (i, r) :: after) :
    ∃ s₁ s₂, Explains m s₀ before s₁ ∧ m s₁ i = some (r, s₂) := by
  induction hh generalizing after with
  | nil => simp at heq
  | @snoc h s s' j q hh hm ih =>
    rcases List.eq_nil_or_concat after with rfl | ⟨front, last, rfl⟩
    · obtain ⟨rfl, hlast⟩ := List.append_inj' heq rfl
      obtain ⟨rfl, rfl⟩ := Prod.mk.inj (List.singleton_inj.mp hlast)
      exact ⟨s, s', hh, hm⟩
    · rw [List.concat_eq_append, ← List.cons_append, ← List.append_assoc] at heq
      exact ih (List.append_inj' heq rfl).1

/-- The last entry of an explained history. -/
theorem Explains.of_snoc {m : σ → ι → Option (ρ × σ)} {s₀ s' : σ} {h : List (ι × ρ)} {i : ι} {r : ρ}
    (hh : Explains m s₀ (h ++ [(i, r)]) s') : ∃ s, Explains m s₀ h s ∧ m s i = some (r, s') := by
  generalize hlong : h ++ [(i, r)] = long at hh
  cases hh with
  | nil => simp at hlong
  | snoc hh hm =>
    obtain ⟨rfl, hlast⟩ := List.append_inj' hlong rfl
    obtain ⟨rfl, rfl⟩ := Prod.mk.inj (List.singleton_inj.mp hlast)
    exact ⟨_, hh, hm⟩

/-- A history leads to one state. -/
theorem Explains.unique {m : σ → ι → Option (ρ × σ)} {s₀ s s' : σ} {h : List (ι × ρ)}
    (hh : Explains m s₀ h s) (hh' : Explains m s₀ h s') : s = s' := by
  induction hh generalizing s' with
  | nil =>
    generalize hnil : ([] : List (ι × ρ)) = h at hh'
    cases hh' with
    | nil => rfl
    | snoc _ _ => simp at hnil
  | snoc _ hm ih =>
    obtain ⟨t, ht, hm'⟩ := hh'.of_snoc
    obtain rfl := ih ht
    exact (Prod.mk.inj (Option.some.inj (hm.symm.trans hm'))).2

/-- The entries of a history that add nothing can be left out. -/
theorem flatMap_filter_of_nil {α β : Type*} {p : α → Bool} {f : α → List β}
    (hf : ∀ {e}, p e = false → f e = []) (h : List α) : (h.filter p).flatMap f = h.flatMap f := by
  induction h with
  | nil => rfl
  | cons e h ih =>
    rw [List.filter_cons, List.flatMap_cons]
    split_ifs with hp
    · rw [List.flatMap_cons, ih]
    · rw [ih, hf (Bool.not_eq_true _ ▸ hp), List.nil_append]

/-! ## Threads -/

/-- What a step of a call leads to: the call goes on at `pc`, or it returns. -/
inductive Next (Pc ρ : Type)
  | goto (pc : Pc)
  | ret (reply : ρ)

/-- A thread between calls, or inside one; `touched` tells whether its steps so far have changed
what the threads share. -/
inductive Thread (ι Pc : Type)
  | idle
  | inside (call : ι) (pc : Pc) (touched : Bool)

/-- The thread is in no other call. -/
def Thread.In (call : ι) : Thread ι Pc → Prop
  | .idle => True
  | .inside call' _ _ => call' = call

/-- A call that has returned. -/
structure Return (ι ρ : Type) where
  call : ι
  reply : ρ
  touched : Bool

/-- The call and its reply, as an entry of a history. -/
def Return.entry (r : Return ι ρ) : ι × ρ := (r.call, r.reply)

/-- The thread after a step of its call. -/
def Next.thread (call : ι) (touched : Bool) : Next Pc ρ → Thread ι Pc
  | .goto pc => .inside call pc touched
  | .ret _ => .idle

/-- What a step of a call adds to the calls that have returned. -/
def Next.returned (call : ι) (touched : Bool) : Next Pc ρ → List (Return ι ρ)
  | .goto _ => []
  | .ret reply => [⟨call, reply, touched⟩]

/-- **A call that runs alone finishes**: from the state `s` on its steps lead to the return of
`reply`, in the state `s'`. -/
inductive Finishes (step : σ → Pc → σ × Next Pc ρ) (reply : ρ) (s' : σ) : σ → Next Pc ρ → Prop
  | ret : Finishes step reply s' s' (.ret reply)
  | goto {s : σ} {pc : Pc} (h : Finishes step reply s' (step s pc).1 (step s pc).2) :
      Finishes step reply s' s (.goto pc)

theorem Next.eq_ret_of_returned {call : ι} {touched : Bool} {next : Next Pc ρ} {r : Return ι ρ}
    (h : next.returned call touched = [r]) : r.call = call ∧ next = .ret r.reply := by
  cases next with
  | goto pc => cases h
  | ret reply =>
    obtain rfl := List.singleton_inj.mp h
    exact ⟨rfl, rfl⟩

end Femtolog
