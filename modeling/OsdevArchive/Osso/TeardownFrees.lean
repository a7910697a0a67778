import OsdevArchive.Lib.Emptying
import OsdevArchive.Lib.Partial
import OsdevArchive.Osso.Teardown

/-!
What the teardown of a process passes to `freepage`. `Linear_free` takes the pages of the
stacks out of their slots, and the walk over the page tables what is left there.
-/

namespace OsdevArchive.Osso.Teardown

open OsdevArchive.Lib.Emptying OsdevArchive.Lib.Partial OsdevArchive.Lib.RingBuffer
open OsdevArchive.Osso.Messages (Index MsgHeader Pte Space Table dirIndex maxMessages tableIndex)
open OsdevArchive.Osso.Threads (Config ThreadTable entry)

/-! ### Slots -/

section
variable {P : Type}

theorem table_freepage (space : Space P) (page : Nat) :
    (space.freepage page).table = space.table := by
  rw [Space.freepage]
  split <;> rfl

theorem tables_freepage (space : Space P) (page : Nat) :
    (space.freepage page).tables = space.tables := by
  rw [Space.freepage]
  split <;> rfl

end

namespace Pages

variable {P : Type} (m : Pages P) (processo : P) (s s' : Slot P) (page : Nat)

/-- The page in a slot, present or not. -/
def base : Nat := (m.entry s).pageBaseAddr

/-- What a slot holds. -/
def frame : Option Nat := if (m.entry s).present then some (m.base s) else none

/-- Where `Linear_free` does not panic. -/
def Mapped : Prop := s.1 ≠ .pageZero ∧ (m.entry s).present

theorem frame_eq_some {m : Pages P} {s : Slot P} (h : m.Mapped s) : m.frame s = some (m.base s) :=
  if_pos h.2

theorem filterMap_frame {m : Pages P} {l : List (Slot P)} (h : ∀ s ∈ l, m.Mapped s) :
    l.filterMap m.frame = l.map m.base := by
  rw [← List.filterMap_eq_map]
  exact List.filterMap_congr fun s hs => frame_eq_some (h s hs)

@[simp] theorem entry_freepage : (m.freepage page).entry = m.entry := by
  funext s
  simp only [entry, freepage, tables_freepage]

@[simp] theorem base_freepage : (m.freepage page).base = m.base := by
  funext s
  simp only [base, entry_freepage]

@[simp] theorem frame_freepage : (m.freepage page).frame = m.frame := by
  funext s
  simp only [frame, entry_freepage, base_freepage]

variable [DecidableEq P]

@[simp] theorem table_freeSlot : (m.freeSlot s).space.table = m.space.table :=
  table_freepage m.space _

@[simp] theorem slot_freeSlot : (m.freeSlot s).slot = m.slot := by
  funext p a
  simp only [slot, table_freeSlot]

theorem entry_freeSlot : (m.freeSlot s).entry s' =
    if s' = s then { m.entry s with present := false } else m.entry s' := by
  obtain ⟨table, i⟩ := s
  obtain ⟨table', i'⟩ := s'
  simp only [entry, freeSlot, Prod.mk.injEq]
  by_cases ht : table' = table
  · subst ht
    by_cases hi : i' = i
    · simp [hi]
    · simp [hi]
  · simp [ht]

@[simp] theorem base_freeSlot : (m.freeSlot s).base = m.base := by
  funext s'
  simp only [base, entry_freeSlot]
  split
  · next hs => rw [hs]
  · rfl

theorem frame_freeSlot : (m.freeSlot s).frame = emptied m.frame [s] := by
  funext s'
  simp only [frame, entry_freeSlot, base_freeSlot, emptied, List.mem_singleton]
  by_cases hs : s' = s
  · simp [hs]
  · simp [hs]

theorem mapped_freeSlot : (m.freeSlot s).Mapped s' ↔ m.Mapped s' ∧ s' ≠ s := by
  simp only [Mapped, entry_freeSlot]
  by_cases hs : s' = s
  · simp [hs]
  · simp [hs]

/-! ### Several slots -/

/-- The slots of some mapped addresses, one after the other. -/
def loopSlots : Dword → Nat → List (Slot P)
  | _, 0 => []
  | indirizzo, pages + 1 => m.slot processo indirizzo :: loopSlots (indirizzo + 4096) pages

def freeSlots (l : List (Slot P)) : Pages P := l.foldl freeSlot m

/-- The slots can be freed one after the other. -/
def Freeable (l : List (Slot P)) : Prop := l.Nodup ∧ ∀ s ∈ l, m.Mapped s

variable {m} {l l' : List (Slot P)}

@[simp] theorem freeSlots_nil : m.freeSlots [] = m := rfl

theorem freeSlots_append : m.freeSlots (l ++ l') = (m.freeSlots l).freeSlots l' :=
  List.foldl_append

@[simp] theorem table_freeSlots : (m.freeSlots l).space.table = m.space.table := by
  induction l generalizing m with
  | nil => rfl
  | cons s rest ih => rw [freeSlots, List.foldl_cons, ← freeSlots, ih, table_freeSlot]

@[simp] theorem slot_freeSlots : (m.freeSlots l).slot = m.slot := by
  funext p a
  simp only [slot, table_freeSlots]

@[simp] theorem base_freeSlots : (m.freeSlots l).base = m.base := by
  induction l generalizing m with
  | nil => rfl
  | cons s rest ih => rw [freeSlots, List.foldl_cons, ← freeSlots, ih, base_freeSlot]

@[simp] theorem tablePage_freeSlots : (m.freeSlots l).tablePage = m.tablePage := by
  induction l generalizing m with
  | nil => rfl
  | cons s rest ih =>
    rw [freeSlots, List.foldl_cons, ← freeSlots, ih]
    rfl

theorem frame_freeSlots : (m.freeSlots l).frame = emptied m.frame l := by
  induction l generalizing m with
  | nil => simp
  | cons s rest ih =>
    rw [freeSlots, List.foldl_cons, ← freeSlots, ih, frame_freeSlot, ← emptied_append]
    rfl

theorem freed_freeSlots : (m.freeSlots l).freed = m.freed ++ l.map m.base := by
  induction l generalizing m with
  | nil => simp
  | cons s rest ih =>
    rw [freeSlots, List.foldl_cons, ← freeSlots, ih, base_freeSlot, List.map_cons,
      List.append_cons]
    rfl

theorem mapped_freeSlots {s : Slot P} : (m.freeSlots l).Mapped s ↔ m.Mapped s ∧ s ∉ l := by
  induction l generalizing m with
  | nil => simp
  | cons s' rest ih =>
    rw [freeSlots, List.foldl_cons, ← freeSlots, ih, mapped_freeSlot, List.mem_cons, not_or,
      and_assoc]

theorem freeable_append :
    m.Freeable (l ++ l') ↔ m.Freeable l ∧ (m.freeSlots l).Freeable l' := by
  simp only [Freeable, mapped_freeSlots, List.nodup_append', List.mem_append, List.Disjoint]
  constructor
  · rintro ⟨⟨hl, hl', hdisj⟩, hmapped⟩
    exact ⟨⟨hl, fun s hs => hmapped s (.inl hs)⟩, hl',
      fun s hs => ⟨hmapped s (.inr hs), fun hs' => hdisj hs' hs⟩⟩
  · rintro ⟨⟨hl, hmapped⟩, hl', hmapped'⟩
    refine ⟨⟨hl, hl', fun s hs hs' => (hmapped' s hs').2 hs⟩, ?_⟩
    rintro s (hs | hs)
    · exact hmapped s hs
    · exact (hmapped' s hs).1

omit [DecidableEq P] in
theorem freeable_nil : m.Freeable [] := ⟨List.nodup_nil, nofun⟩

omit [DecidableEq P] in
theorem freeable_singleton {s : Slot P} : m.Freeable [s] ↔ m.Mapped s := by
  simp [Freeable]

/-! ### The loops -/

omit [DecidableEq P] in
theorem loopSlots_congr {m' : Pages P} {processo : P} (h : m'.slot = m.slot) :
    ∀ indirizzo pages, m'.loopSlots processo indirizzo pages =
      m.loopSlots processo indirizzo pages
  | _, 0 => rfl
  | indirizzo, pages + 1 => by
    rw [loopSlots, loopSlots, h, loopSlots_congr h]

theorem freeLoop_gives {processo : P} (indirizzo : Dword) (pages : Nat) :
    Gives (m.freeLoop processo indirizzo pages) (m.Freeable (m.loopSlots processo indirizzo pages))
      (m.freeSlots (m.loopSlots processo indirizzo pages)) := by
  induction pages generalizing m indirizzo with
  | zero => exact (gives_some m).congr (iff_of_true trivial freeable_nil) rfl
  | succ pages ih =>
    have hrest : (m.freeSlot (m.slot processo indirizzo)).loopSlots processo (indirizzo + 4096)
        pages = m.loopSlots processo (indirizzo + 4096) pages :=
      loopSlots_congr (m.slot_freeSlot (m.slot processo indirizzo)) ..
    have hsplit : m.loopSlots processo indirizzo (pages + 1) =
        [m.slot processo indirizzo] ++ (m.freeSlot (m.slot processo indirizzo)).loopSlots processo
          (indirizzo + 4096) pages := by
      rw [hrest]
      rfl
    rw [hsplit, freeable_append, freeSlots_append, freeable_singleton]
    simp only [freeLoop]
    by_cases hzero : (m.slot processo indirizzo).1 = .pageZero
    · rw [if_pos hzero]
      exact (gives_none _).congr (iff_of_false id fun h => h.1.1 hzero) rfl
    · rw [if_neg hzero]
      by_cases hpresent : (m.entry (m.slot processo indirizzo)).present
      · rw [if_pos hpresent]
        exact (ih (indirizzo + 4096)).congr (and_iff_right ⟨hzero, hpresent⟩).symm rfl
      · rw [if_neg hpresent]
        exact (gives_none _).congr (iff_of_false id fun h => hpresent h.1.2) rfl

/-- The slots of a page table. -/
def tableSlots (pinko : Table P) : List (Slot P) := (List.finRange 1024).map (Prod.mk pinko)

theorem freeFrames_eq {pinko : Table P} {is : List Index} (his : is.Nodup) :
    m.freeFrames pinko is =
      m.freeSlots ((is.map (Prod.mk pinko)).filter fun s => (m.entry s).present) := by
  induction is generalizing m with
  | nil => rfl
  | cons i rest ih =>
    obtain ⟨hi, hrest⟩ := List.nodup_cons.mp his
    rw [freeFrames, List.map_cons]
    split
    · next hpresent =>
      have hsame : (rest.map (Prod.mk pinko)).filter
            (fun s => ((m.freeSlot (pinko, i)).entry s).present) =
          (rest.map (Prod.mk pinko)).filter fun s => (m.entry s).present := by
        apply List.filter_congr
        intro s hs
        obtain ⟨j, hj, rfl⟩ := List.mem_map.mp hs
        have hne : ¬ (pinko, j) = (pinko, i) := fun h => hi ((Prod.mk.inj h).2 ▸ hj)
        rw [entry_freeSlot, if_neg hne]
      rw [ih hrest, hsame, List.filter_cons, if_pos hpresent]
      rfl
    · next hpresent => rw [ih hrest, List.filter_cons, if_neg hpresent]

omit [DecidableEq P] in
theorem map_base_filter (l : List (Slot P)) :
    (l.filter fun s => (m.entry s).present).map m.base = l.filterMap m.frame := by
  rw [← List.filterMap_eq_map, List.filterMap_filter]
  apply List.filterMap_congr
  intro s _
  rw [frame]
  rfl

theorem freed_freeTable (pinko : Table P) : (m.freeTable pinko).freed =
    m.freed ++ (tableSlots pinko).filterMap m.frame ++ [m.tablePage pinko] := by
  have hframes : (m.freeFrames pinko (List.finRange 1024)).freed =
      m.freed ++ (tableSlots pinko).filterMap m.frame := by
    rw [freeFrames_eq (List.nodup_finRange _), freed_freeSlots, map_base_filter, tableSlots]
  rw [freeTable, freepage, hframes]

@[simp] theorem table_freeTable (pinko : Table P) :
    (m.freeTable pinko).space.table = m.space.table := by
  rw [freeTable, freepage, table_freepage, freeFrames_eq (List.nodup_finRange _), table_freeSlots]

@[simp] theorem tablePage_freeTable (pinko : Table P) :
    (m.freeTable pinko).tablePage = m.tablePage := by
  rw [freeTable, freepage, freeFrames_eq (List.nodup_finRange _), tablePage_freeSlots]

theorem frame_freeTable {pinko : Table P} {s : Slot P} (hs : s.1 ≠ pinko) :
    (m.freeTable pinko).frame s = m.frame s := by
  rw [freeTable, frame_freepage, freeFrames_eq (List.nodup_finRange _), frame_freeSlots, emptied,
    if_neg]
  intro hmem
  obtain ⟨i, -, rfl⟩ := List.mem_map.mp (List.mem_of_mem_filter hmem)
  exact hs rfl

omit [DecidableEq P] in
theorem table_inj {space : Space P} {processo : P} {t t' : Index}
    (h : space.table processo t = space.table processo t')
    (hne : space.table processo t ≠ .pageZero) : t = t' := by
  rw [Space.table] at h hne
  rw [Space.table] at h
  split at h
  · split at h
    · exact Table.kernel.inj h
    · split at h <;> cases h
  · next hkernel =>
    rw [if_neg hkernel] at hne
    split at h
    · split at h
      · cases h
      · split at h
        · exact (Table.user.inj h).2
        · cases h
    · next huser => exact absurd (if_neg huser) hne

variable (m) (processo : P) (dirs : List Index)

/-- The entries of a page directory that lead to a page table. -/
def used : List Index := dirs.filter fun t => m.space.table processo t ≠ .pageZero

def dirSlots : List (Slot P) :=
  (m.used processo dirs).flatMap fun t => tableSlots (m.space.table processo t)

def dirTables : List Nat :=
  (m.used processo dirs).map fun t => m.tablePage (m.space.table processo t)

variable {m processo dirs}

theorem mem_dirSlots {s : Slot P} : s ∈ m.dirSlots processo dirs ↔
    s.1 ≠ .pageZero ∧ ∃ t ∈ dirs, m.space.table processo t = s.1 := by
  obtain ⟨table, i⟩ := s
  simp only [dirSlots, used, tableSlots, List.mem_flatMap, List.mem_filter, List.mem_map,
    List.mem_finRange, true_and, Prod.mk.injEq, decide_eq_true_eq]
  constructor
  · rintro ⟨t, ⟨ht, hne⟩, i', rfl, rfl⟩
    exact ⟨hne, t, ht, rfl⟩
  · rintro ⟨hne, t, ht, rfl⟩
    exact ⟨t, ⟨ht, hne⟩, i, rfl, rfl⟩

theorem mem_dirTables {page : Nat} : page ∈ m.dirTables processo dirs ↔
    ∃ t ∈ m.used processo dirs, m.tablePage (m.space.table processo t) = page := List.mem_map

theorem mem_used {t : Index} :
    t ∈ m.used processo dirs ↔ t ∈ dirs ∧ m.space.table processo t ≠ .pageZero := by
  simp [used]

theorem nodup_dirSlots (hdirs : dirs.Nodup) : (m.dirSlots processo dirs).Nodup := by
  apply List.nodup_flatMap.mpr
  constructor
  · intro t _
    exact (List.nodup_finRange _).map (Prod.mk_right_injective _)
  · apply (hdirs.filter _).imp_of_mem
    intro t t' ht ht' hne s hs hs'
    obtain ⟨i, -, rfl⟩ := List.mem_map.mp hs
    obtain ⟨i', -, heq⟩ := List.mem_map.mp hs'
    have hused := (List.mem_filter.mp ht).2
    exact hne (table_inj (Prod.mk.inj heq).1.symm (of_decide_eq_true hused))

/-- What the walk over the page tables passes to `freepage`. -/
theorem freed_freeTables (m : Pages P) (processo : P) (hdirs : dirs.Nodup) :
    ∃ pages, (m.freeTables processo dirs).freed = m.freed ++ pages ∧
      pages.Perm ((m.dirSlots processo dirs).filterMap m.frame ++ m.dirTables processo dirs) := by
  induction dirs generalizing m with
  | nil => exact ⟨[], (List.append_nil _).symm, .refl _⟩
  | cons t rest ih =>
    obtain ⟨ht, hrest⟩ := List.nodup_cons.mp hdirs
    rw [freeTables]
    by_cases hzero : m.space.table processo t = .pageZero
    · have hused : m.used processo (t :: rest) = m.used processo rest :=
        List.filter_cons_of_neg (by simpa using hzero)
      simp only [hzero, if_true, dirSlots, dirTables, hused]
      exact ih m hrest
    · have hused : m.used processo (t :: rest) = t :: m.used processo rest :=
        List.filter_cons_of_pos (by simpa using hzero)
      have hslots : (m.freeTable (m.space.table processo t)).dirSlots processo rest =
          m.dirSlots processo rest := by
        simp only [dirSlots, used, table_freeTable]
      have htables : (m.freeTable (m.space.table processo t)).dirTables processo rest =
          m.dirTables processo rest := by
        simp only [dirTables, used, table_freeTable, tablePage_freeTable]
      have hframe : (m.dirSlots processo rest).filterMap
            (m.freeTable (m.space.table processo t)).frame =
          (m.dirSlots processo rest).filterMap m.frame := by
        apply List.filterMap_congr
        intro s hs
        obtain ⟨-, t', ht', htable'⟩ := mem_dirSlots.mp hs
        have hne : s.1 ≠ m.space.table processo t := fun heq => by
          rw [← table_inj (heq.symm.trans htable'.symm) hzero] at ht'
          exact ht ht'
        exact frame_freeTable hne
      obtain ⟨pages, hpages, hperm⟩ := ih (m.freeTable (m.space.table processo t)) hrest
      rw [hslots, hframe, htables] at hperm
      refine ⟨(tableSlots (m.space.table processo t)).filterMap m.frame ++
        m.tablePage (m.space.table processo t) :: pages, ?_, ?_⟩
      · rw [if_neg hzero, hpages, freed_freeTable]
        simp only [List.append_assoc, List.cons_append, List.nil_append]
      · rw [dirSlots, dirTables, hused, List.flatMap_cons, List.map_cons, List.filterMap_append,
          List.append_assoc]
        apply List.Perm.append_left
        exact (hperm.cons _).trans List.perm_middle.symm

omit [DecidableEq P] in
/-- What else is passed to `freepage` leaves the slots as they are. -/
theorem freepages_same (pages : List Nat) : (pages.foldl freepage m).space.table = m.space.table ∧
    (pages.foldl freepage m).entry = m.entry ∧ (pages.foldl freepage m).tablePage = m.tablePage ∧
    (pages.foldl freepage m).freed = m.freed ++ pages := by
  induction pages generalizing m with
  | nil => exact ⟨rfl, rfl, rfl, (List.append_nil _).symm⟩
  | cons page rest ih =>
    obtain ⟨htable, hentry, htablePage, hfreed⟩ := ih (m := m.freepage page)
    refine ⟨htable.trans (table_freepage ..), hentry.trans (entry_freepage ..), htablePage, ?_⟩
    rw [List.foldl_cons, hfreed, List.append_cons]
    rfl

/-- The slots of some stacks. -/
def stackSlots (m : Pages P) (areas : List (P × Dword)) : List (Slot P) :=
  areas.flatMap fun stack => m.loopSlots stack.1 stack.2 (pagesNeeded threadStacksSize)

omit [DecidableEq P] in
theorem stackSlots_append (areas areas' : List (P × Dword)) :
    m.stackSlots (areas ++ areas') = m.stackSlots areas ++ m.stackSlots areas' :=
  List.flatMap_append

omit [DecidableEq P] in
theorem stackSlots_congr {m' : Pages P} (h : m'.slot = m.slot) (areas : List (P × Dword)) :
    m'.stackSlots areas = m.stackSlots areas := by
  rw [stackSlots, stackSlots]
  exact List.flatMap_congr fun stack _ => loopSlots_congr h ..

theorem linearFree_gives (processo : P) (indirizzo : Dword) :
    Gives (m.linearFree processo indirizzo threadStacksSize)
      (m.Freeable (m.stackSlots [(processo, indirizzo)]))
      (m.freeSlots (m.stackSlots [(processo, indirizzo)])) := by
  have hslots : m.stackSlots [(processo, indirizzo)] =
      m.loopSlots processo indirizzo (pagesNeeded threadStacksSize) := List.flatMap_singleton ..
  rw [hslots]
  exact freeLoop_gives indirizzo _

end Pages

/-! ### Threads -/

namespace Machine

variable {P T : Type} [DecidableEq P] [DecidableEq T]

omit [DecidableEq P] in
/-- The other threads that stand in a table. -/
def others (running : T) (threads : ThreadTable T) (is : List (Fin 10)) : List T :=
  is.filterMap fun i => (threads i).filter (· ≠ running)

section
variable (m : Machine P T)

omit [DecidableEq P] [DecidableEq T] in
/-- The stacks that `Destroy_Thread` frees, where the caller's field for its kernel stack
is this. -/
def stacksOf (kernelStack : Dword) (tid : T) : List (P × Dword) :=
  (if kernelStack = 0 then [] else [(m.task tid, m.kernelStack tid)]) ++
    if m.userStack tid = 0 then [] else [(m.task tid, m.userStack tid)]

omit [DecidableEq P] [DecidableEq T] in
/-- The stacks that it frees for several threads: one kernel stack at most. -/
def threadStacks : Dword → List T → List (P × Dword)
  | _, [] => []
  | kernelStack, tid :: rest => m.stacksOf kernelStack tid ++ threadStacks 0 rest

omit [DecidableEq P] [DecidableEq T] in
/-- What the caller's field for its user stack is then. -/
def userLeft (userStack : Dword) (tids : List T) : Dword :=
  if ∃ tid ∈ tids, m.userStack tid ≠ 0 then 0 else userStack

/-- The machine with the fields that change while threads are destroyed. -/
def after (running : T) (pages : Pages P) (threads : P → ThreadTable T)
    (kernelStack userStack : Dword) : Machine P T :=
  { m with
    pages := pages
    threads := threads
    kernelStack := Function.update m.kernelStack running kernelStack
    userStack := Function.update m.userStack running userStack }

end

/-- What the caller's field for its kernel stack is then. -/
def kernelLeft (kernelStack : Dword) (tids : List T) : Dword :=
  if tids = [] then kernelStack else 0

/-- `Destroy_Thread` neither panics nor reads behind the process table. -/
def Ends (cfg : Config P T) (m : Machine P T) (tid : T) : Prop :=
  tid ≠ cfg.kernelThread ∧ (m.pid tid).toNat < cfg.processi.length

variable {cfg : Config P T} {m : Machine P T} {running tid : T} {processo : P} {pages : Pages P}
  {threads : P → ThreadTable T} {kernelStack userStack : Dword}

omit [DecidableEq P] in
theorem after_self : m.after running m.pages m.threads (m.kernelStack running)
    (m.userStack running) = m := by
  simp [after]

variable (cfg m running pages threads kernelStack userStack)

theorem freeKernelStack_gives (tid : T) :
    let stack := Function.update m.kernelStack running kernelStack tid
    let slots := pages.stackSlots (if kernelStack = 0 then [] else [(m.task tid, stack)])
    Gives ((m.after running pages threads kernelStack userStack).freeKernelStack running tid)
      (pages.Freeable slots) (m.after running (pages.freeSlots slots) threads 0 userStack) := by
  intro stack slots
  have hfield : (m.after running pages threads kernelStack userStack).kernelStack running =
      kernelStack := Function.update_self ..
  rw [freeKernelStack, hfield]
  by_cases hzero : kernelStack = 0
  · subst hzero
    exact (gives_some _).congr (iff_of_true trivial Pages.freeable_nil) rfl
  · have hslots : slots = pages.stackSlots [(m.task tid, stack)] := by
      simp only [slots, if_neg hzero]
    rw [if_neg hzero, hslots]
    refine Gives.congr (Gives.map (Pages.linearFree_gives (m.task tid) stack)) Iff.rfl ?_
    simp [after]

theorem freeUserStack_gives {stack : Dword}
    (hstack : Function.update m.userStack running userStack tid = stack) :
    let slots := pages.stackSlots (if stack = 0 then [] else [(m.task tid, stack)])
    Gives ((m.after running pages threads kernelStack userStack).freeUserStack running tid)
      (pages.Freeable slots) (m.after running (pages.freeSlots slots) threads kernelStack
        (if stack = 0 then userStack else 0)) := by
  intro slots
  have hfield : (m.after running pages threads kernelStack userStack).userStack tid = stack :=
    hstack
  rw [freeUserStack, hfield]
  by_cases hzero : stack = 0
  · subst hzero
    exact (gives_some _).congr (iff_of_true trivial Pages.freeable_nil) rfl
  · have hslots : slots = pages.stackSlots [(m.task tid, stack)] := by
      simp only [slots, if_neg hzero]
    rw [if_neg hzero, if_neg hzero, hslots]
    refine Gives.congr (Gives.map (Pages.linearFree_gives (m.task tid) stack)) Iff.rfl ?_
    simp [after]

omit [DecidableEq P] in
/-- Only entries of the running thread are cleared. -/
def Cleared (running : T) (threads threads' : P → ThreadTable T) : Prop :=
  ∀ q i, threads' q i = threads q i ∨ threads q i = some running ∧ threads' q i = none

theorem clearRunning_eq (slot : P) : ∃ threads', Cleared running threads threads' ∧
    (m.after running pages threads kernelStack userStack).clearRunning running slot =
      m.after running pages threads' kernelStack userStack := by
  rw [clearRunning]
  split
  · next jj hentry =>
    refine ⟨Function.update threads slot (Function.update (threads slot) jj none), ?_, rfl⟩
    have hfind : (List.finRange 10).find? (fun jj => threads slot jj = some running) = some jj :=
      hentry
    have hjj : threads slot jj = some running := by simpa using List.find?_some hfind
    intro q i
    by_cases hq : q = slot
    · subst hq
      by_cases hi : i = jj
      · subst hi
        exact .inr ⟨hjj, by simp⟩
      · exact .inl (by simp [hi])
    · exact .inl (by simp [hq])
  · exact ⟨threads, fun _ _ => .inl rfl, rfl⟩

theorem destroyThread_gives (htid : tid ≠ running) :
    ∃ threads', Cleared running threads threads' ∧
      Gives ((m.after running pages threads kernelStack userStack).destroyThread running tid cfg)
        (Ends cfg m tid ∧ pages.Freeable (pages.stackSlots (m.stacksOf kernelStack tid)))
        (m.after running (pages.freeSlots (pages.stackSlots (m.stacksOf kernelStack tid)))
          threads' 0 (if m.userStack tid = 0 then userStack else 0)) := by
  rw [destroyThread]
  by_cases hkernel : tid = cfg.kernelThread
  · rw [if_pos (.inl hkernel)]
    exact ⟨threads, fun _ _ => .inl rfl,
      (gives_none _).congr (iff_of_false id fun h => h.1.1 hkernel) rfl⟩
  · rw [if_neg (not_or.mpr ⟨hkernel, htid⟩)]
    cases hslot : cfg.processi[(m.pid tid).toNat]? with
    | none =>
      have hpid : ¬ (m.pid tid).toNat < cfg.processi.length := by simpa using hslot
      have hslot' : cfg.processi[((m.after running pages threads kernelStack userStack).pid
          tid).toNat]? = none := hslot
      rw [hslot']
      exact ⟨threads, fun _ _ => .inl rfl,
        (gives_none _).congr (iff_of_false id fun h => hpid h.1.2) rfl⟩
    | some slot =>
      have hpid : (m.pid tid).toNat < cfg.processi.length :=
        (List.getElem?_eq_some_iff.mp hslot).1
      have hslot' : cfg.processi[((m.after running pages threads kernelStack userStack).pid
          tid).toNat]? = some slot := hslot
      obtain ⟨threads', hcleared, hclear⟩ := clearRunning_eq m running pages threads kernelStack
        userStack slot
      refine ⟨threads', hcleared, ?_⟩
      rw [hslot', Option.bind_eq_bind, Option.bind_some, hclear]
      have hkernelStack := freeKernelStack_gives m running pages threads' kernelStack userStack tid
      rw [Function.update_of_ne htid] at hkernelStack
      have hstack : Function.update m.userStack running userStack tid = m.userStack tid :=
        Function.update_of_ne htid ..
      have huserStack := freeUserStack_gives m running (pages.freeSlots (pages.stackSlots
        (if kernelStack = 0 then [] else [(m.task tid, m.kernelStack tid)]))) threads' 0
        userStack hstack
      refine Gives.congr (Gives.bind hkernelStack huserStack) ?_ ?_
      · rw [Pages.stackSlots_congr Pages.slot_freeSlots, ← Pages.freeable_append,
          ← Pages.stackSlots_append]
        exact (and_iff_right ⟨hkernel, hpid⟩).symm
      · rw [Pages.stackSlots_congr Pages.slot_freeSlots, ← Pages.freeSlots_append,
          ← Pages.stackSlots_append]
        rfl

variable {cfg m running pages threads kernelStack userStack}

omit [DecidableEq P] in
theorem Cleared.others {threads' : P → ThreadTable T} (h : Cleared running threads threads')
    (is : List (Fin 10)) :
    others running (threads' processo) is = others running (threads processo) is := by
  apply List.filterMap_congr
  intro i _
  obtain hsame | ⟨hrunning, hnone⟩ := h processo i
  · rw [hsame]
  · rw [hrunning, hnone]
    simp [Option.filter]

omit [DecidableEq P] [DecidableEq T] in
theorem userLeft_cons (tids : List T) :
    m.userLeft (if m.userStack tid = 0 then userStack else 0) tids =
      m.userLeft userStack (tid :: tids) := by
  simp only [userLeft, List.exists_mem_cons_iff]
  by_cases hzero : m.userStack tid = 0
  · simp only [hzero, ne_eq, not_true, false_or, if_true]
  · simp only [hzero, ne_eq, not_false_iff, true_or, if_true, if_false, ite_self]

/-- The threads `tids` are destroyed, and their stacks freed. -/
def Destroys (cfg : Config P T) (m : Machine P T) (running : T) (pages : Pages P)
    (kernelStack userStack : Dword) (tids : List T) (r : Option (Machine P T)) : Prop :=
  ∃ threads', Gives r
    ((∀ tid ∈ tids, Ends cfg m tid) ∧
      pages.Freeable (pages.stackSlots (m.threadStacks kernelStack tids)))
    (m.after running (pages.freeSlots (pages.stackSlots (m.threadStacks kernelStack tids)))
      threads' (kernelLeft kernelStack tids) (m.userLeft userStack tids))

theorem destroys_nil : Destroys cfg m running pages kernelStack userStack []
    (some (m.after running pages threads kernelStack userStack)) := by
  refine ⟨threads, Gives.congr (gives_some _) ?_ ?_⟩
  · simp [threadStacks, Pages.stackSlots, Pages.freeable_nil]
  · simp [threadStacks, Pages.stackSlots, kernelLeft, userLeft]

/-- A thread is destroyed in front of the rest of a loop. -/
theorem destroys_cons {f : Machine P T → Option (Machine P T)} {tids : List T}
    (htid : tid ≠ running)
    (hf : ∀ threads' pages', Cleared running threads threads' →
      Destroys cfg m running pages' 0 (if m.userStack tid = 0 then userStack else 0) tids
        (f (m.after running pages' threads' 0 (if m.userStack tid = 0 then userStack else 0)))) :
    Destroys cfg m running pages kernelStack userStack (tid :: tids)
      (((m.after running pages threads kernelStack userStack).destroyThread running tid
        cfg).bind f) := by
  obtain ⟨threads', hcleared, hdestroy⟩ :=
    destroyThread_gives cfg m running pages threads kernelStack userStack htid
  obtain ⟨threads'', hrest⟩ := hf threads' _ hcleared
  refine ⟨threads'', Gives.congr (Gives.bind hdestroy hrest) ?_ ?_⟩
  · rw [Pages.stackSlots_congr Pages.slot_freeSlots, threadStacks, Pages.stackSlots_append,
      Pages.freeable_append, List.forall_mem_cons]
    tauto
  · rw [Pages.stackSlots_congr Pages.slot_freeSlots, threadStacks, Pages.stackSlots_append,
      Pages.freeSlots_append, userLeft_cons]
    simp [kernelLeft]

variable (cfg m running processo pages threads kernelStack userStack)

theorem exitThreads_gives {is : List (Fin 10)} (his : is.Nodup) :
    Destroys cfg m running pages kernelStack userStack (others running (threads processo) is)
      ((m.after running pages threads kernelStack userStack).exitThreads running processo cfg
        is) := by
  induction is generalizing pages threads kernelStack userStack with
  | nil => exact destroys_nil
  | cons i rest ih =>
    obtain ⟨hi, hrest⟩ := List.nodup_cons.mp his
    rw [exitThreads]
    cases hthread : threads processo i with
    | none =>
      have htids : others running (threads processo) (i :: rest) =
          others running (threads processo) rest := by simp [others, hthread]
      have hentry : (m.after running pages threads kernelStack userStack).threads processo i =
          none := hthread
      rw [htids, hentry]
      exact ih _ _ _ _ hrest
    | some tid =>
      have hentry : (m.after running pages threads kernelStack userStack).threads processo i =
          some tid := hthread
      rw [hentry]
      by_cases htid : tid = running
      · have htids : others running (threads processo) (i :: rest) =
            others running (threads processo) rest := by simp [others, hthread, htid]
        simp only [htids, if_pos htid]
        exact ih _ _ _ _ hrest
      · have htids : others running (threads processo) (i :: rest) =
            tid :: others running (threads processo) rest := by
          simp [others, hthread, Option.filter, htid]
        simp only [htids, if_neg htid]
        apply destroys_cons htid
        intro threads' pages' hcleared
        let threads'' := Function.update threads' processo
          (Function.update (threads' processo) i none)
        have hothers : others running (threads'' processo) rest =
            others running (threads processo) rest := by
          rw [← hcleared.others]
          apply List.filterMap_congr
          intro j hj
          have hne : j ≠ i := fun h => hi (h ▸ hj)
          simp [threads'', hne]
        rw [← hothers]
        exact ih pages' threads'' 0 _ hrest

/-- In a table without the running thread nothing changes. -/
theorem destroyThreads_gives (hrunning : ∀ i, threads processo i ≠ some running)
    (is : List (Fin 10)) :
    Destroys cfg m running pages kernelStack userStack (others running (threads processo) is)
      ((m.after running pages threads kernelStack userStack).destroyThreads running processo cfg
        is) := by
  induction is generalizing pages threads kernelStack userStack with
  | nil => exact destroys_nil
  | cons i rest ih =>
    rw [destroyThreads]
    cases hthread : threads processo i with
    | none =>
      have htids : others running (threads processo) (i :: rest) =
          others running (threads processo) rest := by simp [others, hthread]
      have hentry : (m.after running pages threads kernelStack userStack).threads processo i =
          none := hthread
      rw [htids, hentry]
      exact ih _ _ _ _ hrunning
    | some tid =>
      have hentry : (m.after running pages threads kernelStack userStack).threads processo i =
          some tid := hthread
      have htid : tid ≠ running := fun h => hrunning i (h ▸ hthread)
      have htids : others running (threads processo) (i :: rest) =
          tid :: others running (threads processo) rest := by
        simp [others, hthread, Option.filter, htid]
      rw [hentry]
      simp only [htids, if_neg htid]
      apply destroys_cons htid
      intro threads' pages' hcleared
      have hrunning' (j : Fin 10) : threads' processo j ≠ some running := by
        obtain hsame | ⟨hwas, -⟩ := hcleared processo j
        · rw [hsame]
          exact hrunning j
        · exact absurd hwas (hrunning j)
      rw [← hcleared.others]
      exact ih pages' threads' 0 _ hrunning'

end Machine

/-! ### The two teardowns -/

namespace Pages

variable {P : Type} [DecidableEq P] {m : Pages P} {l l' : List (Slot P)} {processo : P}
  {dirs : List Index}

omit [DecidableEq P] in
theorem freeable_congr {m' : Pages P} (h : m'.entry = m.entry) :
    m'.Freeable l ↔ m.Freeable l := by
  simp only [Freeable, Mapped, h]

/-- What the walk and the stacks give: the pages of the directory, those of stacks that
are not in it, and the page tables. -/
def passed (m : Pages P) (processo : P) (l : List (Slot P)) (dirs : List Index) : List Nat :=
  (m.dirSlots processo dirs).filterMap m.frame ++
    (outside l (m.dirSlots processo dirs)).map m.base ++ m.dirTables processo dirs

/-- Stacks are freed, then the messages, other stacks and what is left. -/
theorem freed_teardown (processo : P) (hl : m.Freeable (l ++ l')) (hdirs : dirs.Nodup)
    (messages : List Nat) :
    ∃ pages, (((messages.foldl freepage (m.freeSlots l)).freeSlots l').freeTables
        processo dirs).freed = m.freed ++ pages ∧
      pages.Perm (m.passed processo (l ++ l') dirs ++ messages) := by
  obtain ⟨htable, hentry, htablePage, hfreed⟩ := freepages_same (m := m.freeSlots l) messages
  have hbase : (messages.foldl freepage (m.freeSlots l)).base = m.base := by
    have hbase' : (messages.foldl freepage (m.freeSlots l)).base = (m.freeSlots l).base := by
      funext s
      rw [base, hentry, base]
    rw [hbase', base_freeSlots]
  have hframe : ((messages.foldl freepage (m.freeSlots l)).freeSlots l').frame =
      emptied m.frame (l ++ l') := by
    have hframe' : (messages.foldl freepage (m.freeSlots l)).frame = (m.freeSlots l).frame := by
      funext s
      rw [frame, base, hentry, frame, base]
    rw [frame_freeSlots, hframe', frame_freeSlots, emptied_append]
  obtain ⟨pages, hpages, hperm⟩ :=
    freed_freeTables ((messages.foldl freepage (m.freeSlots l)).freeSlots l') processo hdirs
  have hslots : ((messages.foldl freepage (m.freeSlots l)).freeSlots l').dirSlots processo dirs =
      m.dirSlots processo dirs := by
    simp only [dirSlots, used, table_freeSlots, htable]
  have htables : ((messages.foldl freepage (m.freeSlots l)).freeSlots l').dirTables processo dirs =
      m.dirTables processo dirs := by
    simp only [dirTables, used, table_freeSlots, tablePage_freeSlots, htable, htablePage]
  rw [hslots, hframe, htables] at hperm
  refine ⟨l.map m.base ++ messages ++ l'.map m.base ++ pages, ?_, ?_⟩
  · rw [hpages, freed_freeSlots, hfreed, freed_freeSlots, hbase]
    simp only [List.append_assoc]
  · have hstacks : ((l ++ l').map m.base ++
          (m.dirSlots processo dirs).filterMap (emptied m.frame (l ++ l'))).Perm
        ((m.dirSlots processo dirs).filterMap m.frame ++
          (outside (l ++ l') (m.dirSlots processo dirs)).map m.base) := by
      have hnodup : (m.dirSlots processo dirs).Nodup := nodup_dirSlots hdirs
      have hall := emptied_perm (f := m.frame) hnodup hl.1
      rw [filterMap_frame hl.2,
        filterMap_frame fun s hs => hl.2 s (mem_outside.mp hs).1] at hall
      exact hall
    calc (l.map m.base ++ messages ++ l'.map m.base ++ pages).Perm
          (l.map m.base ++ messages ++ l'.map m.base ++
            ((m.dirSlots processo dirs).filterMap (emptied m.frame (l ++ l')) ++
              m.dirTables processo dirs)) := hperm.append_left _
      _ |>.Perm (((l ++ l').map m.base ++
            (m.dirSlots processo dirs).filterMap (emptied m.frame (l ++ l'))) ++
              m.dirTables processo dirs ++ messages) := by
          rw [List.map_append]
          simp only [List.append_assoc]
          apply List.Perm.append_left
          refine List.perm_append_comm.trans ?_
          simp only [List.append_assoc]
          exact .refl _
      _ |>.Perm (m.passed processo (l ++ l') dirs ++ messages) :=
          ((hstacks.append_right _).append_right _)

end Pages

end OsdevArchive.Osso.Teardown
