import Mathlib.Data.Option.Basic

/-!
Labelled runs of a step relation. A component is given by a relation
`step s a t` between a state, the label of one atomic action and the state
after it. A run is a finite list of labels; an execution in which every step
meets a side condition is a run of the guarded relation. The invariant rule
below is the only induction over runs that the developments use.
-/

namespace OsdevArchive.Lib.Runs

variable {σ α : Type*}

/-- `Run step s as t`: the actions `as`, in this order, lead from `s` to `t`. -/
inductive Run (step : σ → α → σ → Prop) : σ → List α → σ → Prop where
  | nil (s : σ) : Run step s [] s
  | cons {s t u : σ} {a : α} {as : List α} :
      step s a t → Run step t as u → Run step s (a :: as) u

/-- The steps of `step` that start in a state where `ok` allows the action. -/
def Guarded (ok : σ → α → Prop) (step : σ → α → σ → Prop) (s : σ) (a : α) (t : σ) : Prop :=
  ok s a ∧ step s a t

/-- A function that may fail, read as a step relation. -/
def Computes (f : σ → α → Option σ) (s : σ) (a : α) (t : σ) : Prop :=
  f s a = some t

/-- A total function, read as a step relation. -/
def Updates (f : σ → α → σ) (s : σ) (a : α) (t : σ) : Prop :=
  f s a = t

variable {step : σ → α → σ → Prop} {ok : σ → α → Prop}

theorem Run.single {s t : σ} {a : α} (h : step s a t) : Run step s [a] t :=
  .cons h (.nil t)

theorem Run.append {s t u : σ} {as bs : List α} (h : Run step s as t)
    (k : Run step t bs u) : Run step s (as ++ bs) u := by
  induction h with
  | nil => exact k
  | cons hstep _ ih => exact .cons hstep (ih k)

/-- A step that is taken in every run of a relation is taken in every run of a
larger one. -/
theorem Run.mono {step' : σ → α → σ → Prop} {s t : σ} {as : List α}
    (hle : ∀ s a t, step s a t → step' s a t) (h : Run step s as t) :
    Run step' s as t := by
  induction h with
  | nil s => exact .nil s
  | cons hstep _ ih => exact .cons (hle _ _ _ hstep) ih

/-- The invariant rule: what every single step preserves holds in every state
that a run reaches. -/
theorem Run.invariant {I : σ → Prop} (hstep : ∀ s a t, I s → step s a t → I t)
    {s t : σ} {as : List α} (h : Run step s as t) (hs : I s) : I t := by
  induction h with
  | nil => exact hs
  | cons hst _ ih => exact ih (hstep _ _ _ hs hst)

/-- The invariant rule for guarded runs: the step lemma may use the side
condition that held before the step. -/
theorem Run.guarded_invariant {I : σ → Prop}
    (hstep : ∀ s a t, I s → ok s a → step s a t → I t)
    {s t : σ} {as : List α} (h : Run (Guarded ok step) s as t) (hs : I s) : I t :=
  h.invariant (fun s a t hi hg => hstep s a t hi hg.1 hg.2) hs

/-- The simulation rule: where every step from a related state is matched, so is every
run. -/
theorem Run.simulates {τ : Type*} {step' : τ → α → τ → Prop} {R : σ → τ → Prop}
    (hstep : ∀ s a s' t, R s t → step s a s' → ∃ t', step' t a t' ∧ R s' t')
    {s s' : σ} {t : τ} {as : List α} (h : Run step s as s') (hR : R s t) :
    ∃ t', Run step' t as t' ∧ R s' t' := by
  induction h generalizing t with
  | nil s => exact ⟨t, .nil t, hR⟩
  | cons hst _ ih =>
    obtain ⟨u, hfirst, hu⟩ := hstep _ _ _ _ hR hst
    obtain ⟨t', hrest, ht'⟩ := ih hu
    exact ⟨t', .cons hfirst hrest, ht'⟩

/-- The refinement rule: where every step is a step of another relation between the
states' images, every run is a run of that relation. -/
theorem Run.refines {τ : Type*} {step' : τ → α → τ → Prop} {I : σ → Prop} (abs : σ → τ)
    (hstep : ∀ s a t, I s → step s a t → step' (abs s) a (abs t) ∧ I t)
    {s t : σ} {as : List α} (h : Run step s as t) (hs : I s) :
    Run step' (abs s) as (abs t) ∧ I t := by
  induction h with
  | nil s => exact ⟨.nil _, hs⟩
  | cons hst _ ih =>
      obtain ⟨hfirst, hinv⟩ := hstep _ _ _ hs hst
      obtain ⟨hrest, hlast⟩ := ih hinv
      exact ⟨.cons hfirst hrest, hlast⟩

/-- The exact rule: where a step outside of the side condition does damage that stays,
the runs without damage are the guarded ones. -/
theorem Run.undamaged_iff_guarded {I bad : σ → Prop} (hsound : ∀ s, I s → ¬ bad s)
    (hstep : ∀ s a t, I s → ok s a → step s a t → I t)
    (hbreak : ∀ s a t, I s → ¬ ok s a → step s a t → bad t)
    (hkeep : ∀ s a t, bad s → step s a t → bad t)
    {s t : σ} {as : List α} (h : Run step s as t) (hs : I s) :
    ¬ bad t ↔ Run (Guarded ok step) s as t := by
  constructor
  · intro hgood
    induction h with
    | nil s => exact .nil s
    | @cons s _ _ a _ hfirst hrest ih =>
      by_cases hok : ok s a
      · exact .cons ⟨hok, hfirst⟩ (ih (hstep _ _ _ hs hok hfirst) hgood)
      · exact absurd (hrest.invariant hkeep (hbreak _ _ _ hs hok hfirst)) hgood
  · intro hguarded
    exact hsound t (hguarded.guarded_invariant hstep hs)

/-- The exact rule for a contract of the steps: where a step from a good state meets its
contract exactly if it is allowed, and then leaves a good state, the runs that meet it
throughout are the guarded ones. -/
theorem Run.meets_iff_guarded {I : σ → Prop} {meets : σ → α → σ → Prop}
    (hstep : ∀ s a t, I s → step s a t → (meets s a t ↔ ok s a))
    (hkeep : ∀ s a t, I s → step s a t → meets s a t → I t) {s t : σ} {as : List α} (hs : I s) :
    Run (fun s a t => step s a t ∧ meets s a t) s as t ↔ Run (Guarded ok step) s as t := by
  constructor
  · intro h
    induction h with
    | nil s => exact .nil s
    | cons hfirst _ ih =>
      have hok := (hstep _ _ _ hs hfirst.1).mp hfirst.2
      exact .cons ⟨hok, hfirst.1⟩ (ih (hkeep _ _ _ hs hfirst.1 hfirst.2))
  · intro h
    induction h with
    | nil s => exact .nil s
    | cons hfirst _ ih =>
      have hmeets := (hstep _ _ _ hs hfirst.2).mpr hfirst.1
      exact .cons ⟨hfirst.2, hmeets⟩ (ih (hkeep _ _ _ hs hfirst.2 hmeets))

/-- The exact rule where damage may be undone: the runs whose states are all good are the
guarded ones. -/
theorem Run.good_iff_guarded {good : σ → Prop}
    (hstep : ∀ s a t, good s → step s a t → (good t ↔ ok s a))
    {s t : σ} {as : List α} (hs : good s) :
    Run (fun s a t => step s a t ∧ good t) s as t ↔ Run (Guarded ok step) s as t :=
  Run.meets_iff_guarded hstep (fun _ _ _ _ _ h => h) hs

theorem Run.of_guarded {s t : σ} {as : List α} (h : Run (Guarded ok step) s as t) :
    Run step s as t :=
  h.mono fun _ _ _ hg => hg.2

theorem Run.labelled {s t : σ} {as : List α} (h : Run step s as t) :
    Run (Guarded (fun _ a => a ∈ as) step) s as t := by
  induction h with
  | nil s => exact .nil s
  | cons hstep _ ih =>
      refine .cons ⟨List.mem_cons_self, hstep⟩ (ih.mono fun _ a _ hg => ⟨?_, hg.2⟩)
      exact List.mem_cons_of_mem _ hg.1

/-- Evaluating a function along a list of labels gives a run of its relation. -/
theorem Run.of_foldlM {f : σ → α → Option σ} {s t : σ} {as : List α}
    (h : as.foldlM f s = some t) : Run (Computes f) s as t := by
  induction as generalizing s with
  | nil =>
      obtain rfl : s = t := by simpa using h
      exact .nil s
  | cons a as ih =>
      obtain ⟨u, hu, hrest⟩ : ∃ u, f s a = some u ∧ as.foldlM f u = some t := by
        simpa [Option.bind_eq_some_iff] using h
      exact .cons hu (ih hrest)

/-- Folding a total function over labels gives a run of its relation. -/
theorem Run.of_foldl (f : σ → α → σ) (s : σ) (as : List α) :
    Run (Updates f) s as (as.foldl f s) := by
  induction as generalizing s with
  | nil => exact .nil s
  | cons a as ih => exact .cons rfl (ih (f s a))

/-- The function that performs an action only where it meets a side condition. -/
def checked (ok : σ → α → Prop) [∀ s a, Decidable (ok s a)] (f : σ → α → Option σ)
    (s : σ) (a : α) : Option σ :=
  if ok s a then f s a else none

/-- Evaluating with the side condition gives a guarded run. -/
theorem Run.of_foldlM_checked [∀ s a, Decidable (ok s a)] {f : σ → α → Option σ} {s t : σ}
    {as : List α} (h : as.foldlM (checked ok f) s = some t) :
    Run (Guarded ok (Computes f)) s as t := by
  refine (Run.of_foldlM h).mono fun s a t hstep => ?_
  unfold Computes checked at hstep
  split at hstep
  · exact ⟨‹_›, hstep⟩
  · cases hstep

end OsdevArchive.Lib.Runs
