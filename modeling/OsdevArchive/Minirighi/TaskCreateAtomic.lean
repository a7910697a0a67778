import Mathlib.Order.Lattice.Nat
import OsdevArchive.Minirighi.TaskCreate

/-!
Which failures of a creation are undone. The new task is linked in the zombie queue
at once and no error path unlinks it, so only a failure before that, or one in a
creation whose `add_queue` has failed as well, can leave everything as it was. From
there on the error paths rely on what the freed task structure still holds.
-/

namespace OsdevArchive.Minirighi.TaskCreate

/-- The queues, the live blocks, the descriptors, the counters of shared pages and
the page directory of the father are as they were. -/
structure Restored (s s' : Sys) : Prop where
  heap : s'.heap = s.heap
  floppyCache : s'.floppyCache = s.floppyCache
  readyQueue : s'.readyQueue = s.readyQueue
  zombieQueue : s'.zombieQueue = s.zombieQueue
  gdt : s'.gdt = s.gdt
  cow : s'.cow = s.cow
  dir : s'.dirs s.currPdbr = s.dirs s.currPdbr

/-- No successful call returns one of these values, to anyone. -/
def Call.Tells (call : Call) (values : List Nat) : Prop :=
  ∀ env s, (call.run env s).ok = true → ∀ v ∈ values, v ∉ (call.run env s).values

/-- The part that the functions share is undone: it stopped at the task structure, or
the link in the zombie queue failed too and the freed structure keeps what the error
path reads from it. -/
def Env.Undoes (env : Env) (s : Sys) : Prop :=
  env.mem .task = false ∨ env.mem .zombieEntry = false ∧
    (env.mem .stack = false ∨ env.kept = true ∧ (s.freeSel = none ∨ env.keptOn = true))

/-- `exec_file` when it has read what it reads. -/
def Sys.afterReads (s : Sys) (env : Env) : Sys :=
  let s := s.readFile env .size
  if env.fileSize ≤ 0 then s
  else
    match s.kmalloc env .file with
    | none => s
    | some (_, s) => s.readFile env .load

/-- The failures after which everything is as it was, and known to have failed. -/
def Call.Undoes (call : Call) (env : Env) (s : Sys) : Prop :=
  match call with
  | .createProcess => env.Undoes s
  | .createThread => s.hasCurr = false ∨
      env.Undoes s ∧ (env.mem .task = false ∨ env.mem .stack = false ∨ s.freeSel = none)
  | .doFork => False
  | .execFile => (s.afterReads env).floppyCache = s.floppyCache ∧
      (env.fileSize ≤ 0 ∨ env.mem .file = false ∨ env.loads = false ∨ env.Undoes s)

/-! ## Blocks -/

/-- `s` with one more live block. -/
def Sys.alloc (s : Sys) (a : Addr) : Sys := { s with heap := insert a s.heap }

variable {env : Env} {s s' : Sys} {a b file t stack : Addr} {sel : Nat} {n : NewTask}

@[simp] theorem alloc_zombieQueue : (s.alloc a).zombieQueue = s.zombieQueue := rfl

@[simp] theorem kfree_zombieQueue : (s.kfree a).zombieQueue = s.zombieQueue := rfl

@[simp] theorem abandon_zombieQueue : (s.abandon env n).zombieQueue = s.zombieQueue := rfl

@[simp] theorem abandonGDT_zombieQueue :
    (s.abandonGDT env n).zombieQueue = s.zombieQueue := rfl

theorem kfree_alloc_self (ha : a ∉ s.heap) (ha' : a ≠ 0) : (s.alloc a).kfree a = s := by
  simp [Sys.kfree, Sys.alloc, ha, ha']

theorem kfree_alloc_of_ne (h : a ≠ b) : (s.alloc a).kfree b = (s.kfree b).alloc a := by
  by_cases hb : b = 0 <;> simp [Sys.kfree, Sys.alloc, hb, Finset.erase_insert_of_ne h]

theorem kfree_zero : s.kfree 0 = s := rfl

theorem Restored.refl (s : Sys) : Restored s s := ⟨rfl, rfl, rfl, rfl, rfl, rfl, rfl⟩

/-- How `beginTask` ends. Once the new task is linked in the zombie queue, only that
matters. -/
inductive Begins (env : Env) (file : Addr) (s : Sys) : Except Sys (NewTask × Sys) → Prop where
  | noTask (htask : env.mem .task = false) : Begins env file s (.error (s.kfree file))
  | linkedError {e : Addr × Addr} {s' : Sys} (htask : env.mem .task = true)
      (hlink : env.mem .zombieEntry = true) (hqueue : s'.zombieQueue = s.zombieQueue ++ [e])
      (hcache : s'.floppyCache = s.floppyCache) : Begins env file s (.error s')
  | linked {e : Addr × Addr} {n : NewTask} {s' : Sys} (htask : env.mem .task = true)
      (hlink : env.mem .zombieEntry = true) (hqueue : s'.zombieQueue = s.zombieQueue ++ [e])
      (hcache : s'.floppyCache = s.floppyCache) (hpos : n.task ≠ 0) (hdirs : s'.dirs = s.dirs)
      (hcurr : s'.currPdbr = s.currPdbr) :
      Begins env file s (.ok (n, s'))
  | noStack {t : Addr} (htask : env.mem .task = true) (hlink : env.mem .zombieEntry = false)
      (hstack : env.mem .stack = false) (ht : t ∉ s.heap) (ht' : t ≠ 0) :
      Begins env file s (.error (((s.alloc t).kfree file).kfree t))
  | noSel {t stack : Addr} (htask : env.mem .task = true)
      (hlink : env.mem .zombieEntry = false) (hstack : env.mem .stack = true)
      (ht : t ∉ s.heap) (ht' : t ≠ 0) (hs : stack ∉ (s.alloc t).heap) (hs' : stack ≠ 0)
      (hsel : s.freeSel = none) :
      Begins env file s
        (.error ((((s.alloc t).alloc stack).kfree file).abandon env ⟨t, stack, 0⟩))
  | begun {t stack sel : Addr} (htask : env.mem .task = true)
      (hlink : env.mem .zombieEntry = false) (hstack : env.mem .stack = true)
      (ht : t ∉ s.heap) (ht' : t ≠ 0) (hs : stack ∉ (s.alloc t).heap) (hs' : stack ≠ 0)
      (hsel : s.freeSel = some sel) :
      Begins env file s (.ok (⟨t, stack, sel⟩,
        { (s.alloc t).alloc stack with gdt := Function.update s.gdt sel (some t) }))

/-- `s` before a creation, and `s₀` when it reaches the shared part: the same, or with
the file buffer allocated. -/
inductive Holding (s : Sys) : Addr → Sys → Prop where
  | nothing : Holding s 0 s
  | file {f : Addr} (hf : f ∉ s.heap) (hf' : f ≠ 0) : Holding s f (s.alloc f)

variable {s₀ : Sys}

theorem Holding.kfree (h : Holding s file s₀) : s₀.kfree file = s := by
  cases h with
  | nothing => rfl
  | file hf hf' => exact kfree_alloc_self hf hf'

theorem Holding.ne (h : Holding s file s₀) (ha : a ∉ s₀.heap) (ha' : a ≠ 0) : a ≠ file := by
  cases h with
  | nothing => exact ha'
  | file hf hf' =>
      rintro rfl
      exact ha (Finset.mem_insert_self _ _)

theorem Holding.notMem (h : Holding s file s₀) (ha : a ∉ s₀.heap) : a ∉ s.heap := by
  cases h with
  | nothing => exact ha
  | file hf hf' => exact fun hmem => ha (Finset.mem_insert_of_mem hmem)

theorem Holding.zombieQueue (h : Holding s file s₀) : s₀.zombieQueue = s.zombieQueue := by
  cases h <;> rfl

theorem Holding.freeSel (h : Holding s file s₀) : s₀.freeSel = s.freeSel := by
  cases h <;> rfl

theorem Holding.noStack (h : Holding s file s₀) (ht : t ∉ s₀.heap) (ht' : t ≠ 0) :
    ((s₀.alloc t).kfree file).kfree t = s := by
  rw [kfree_alloc_of_ne (h.ne ht ht'), h.kfree, kfree_alloc_self (h.notMem ht) ht']

/-- The stack is freed if the freed structure still tells where it is. -/
theorem Holding.abandon (h : Holding s file s₀) (env : Env) (sel : Nat)
    (ht : t ∉ s₀.heap) (ht' : t ≠ 0) (hs : stack ∉ (s₀.alloc t).heap) (hs' : stack ≠ 0) :
    stack ∉ s.heap ∧ (((s₀.alloc t).alloc stack).kfree file).abandon env ⟨t, stack, sel⟩ =
      if env.kept = true then s else s.alloc stack := by
  have hst : stack ≠ t := fun heq => hs (heq ▸ Finset.mem_insert_self _ _)
  have hs₀ : stack ∉ s₀.heap := fun hmem => hs (Finset.mem_insert_of_mem hmem)
  have hlive : stack ∉ s.heap := h.notMem hs₀
  refine ⟨hlive, ?_⟩
  rw [kfree_alloc_of_ne (h.ne hs₀ hs'), kfree_alloc_of_ne (h.ne ht ht'), h.kfree]
  unfold Sys.abandon
  rw [kfree_alloc_of_ne hst, kfree_alloc_self (h.notMem ht) ht']
  split
  · exact kfree_alloc_self hlive hs'
  · exact kfree_zero

theorem Begins.complete {s₁ : Sys} (hb : Begins env file s (.ok (n, s₁)))
    (hu : env.Undoes s) : env.mem .task = true ∧ env.mem .stack = true ∧ s.freeSel ≠ none := by
  cases hb with
  | linked htask hlink => simp [Env.Undoes, htask, hlink] at hu
  | begun htask _ hstack _ _ _ _ hsel => exact ⟨htask, hstack, by simp [hsel]⟩

/-! ## The four functions -/

theorem Begins.dirs (h : Holding s file s₀) {s₁ : Sys} (hb : Begins env file s₀ (.ok (n, s₁))) :
    s₁.dirs = s.dirs ∧ s₁.currPdbr = s.currPdbr := by
  have hsame : s₀.dirs = s.dirs ∧ s₀.currPdbr = s.currPdbr := by cases h <;> exact ⟨rfl, rfl⟩
  cases hb with
  | linked _ _ _ _ _ hdirs hcurr => exact ⟨hdirs.trans hsame.1, hcurr.trans hsame.2⟩
  | begun => exact hsame

/-- Enough memory for everything, and a file that is in the floppy cache. -/
def plenty : Env where
  mem _ := true
  block _ live := ⟨live.sup id + 1,
    fun hmem => absurd (Finset.le_sup (f := id) hmem) (Nat.not_succ_le_self _),
    Nat.succ_ne_zero _⟩
  tempPage used := some ⟨used + 1, Nat.succ_ne_self used⟩
  umalloc := true
  cached _ heap cache := ⟨cache \ heap, Finset.sdiff_disjoint⟩
  fileSize := 1
  loads := true
  copies := true
  kept := true
  keptOn := true

/-- A kernel with one task and nothing else. -/
def blank : Sys where
  heap := ∅
  floppyCache := ∅
  readyQueue := []
  zombieQueue := []
  gdt _ := none
  cow _ := none
  dirs _ _ := ⟨false, false, 0⟩
  hasCurr := true
  currPdbr := 4096
  userPrivilege := true
  cr3 := 4096
  lastPid := 1

/-- Memory for everything but the task structure. -/
def noTask : Env := { plenty with mem := fun site => decide (site ≠ .task) }

/-- Memory for everything but the stack. -/
def noStack : Env := { plenty with mem := fun site => decide (site ≠ .stack) }

end OsdevArchive.Minirighi.TaskCreate
