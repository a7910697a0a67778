import OsdevArchive.Osso.TeardownFrees

/-!
When the teardown of a process is exact: what it passes to `freepage` is what the process
owns, each page once. `Exit_Process` walks from entry 31 of the page directory and
`Destroy_Process` from entry 32, whatever the kernel's part is; and neither asks whether a
page that is mapped is the process's own.
-/

namespace OsdevArchive.Osso.Teardown

open OsdevArchive.Lib.Emptying OsdevArchive.Lib.Partial OsdevArchive.Lib.RingBuffer
open OsdevArchive.Osso.Messages (Index MsgHeader Pte Space Table dirIndex maxMessages tableIndex)
open OsdevArchive.Osso.Threads (Config ThreadTable entry)

namespace Machine

variable {P T : Type} [DecidableEq P] [DecidableEq T]

section
variable (cfg : Config P T) (m m' : Machine P T) (running : T) (processo : P) (pages : List Nat)

/-- The stacks of the other threads, and what is left of its own. -/
def exitStacks : List (P × Dword) :=
  let tids := others running (m.threads (m.task running)) (List.finRange 10)
  let kernelStack := kernelLeft (m.kernelStack running) tids
  let userStack := m.userLeft (m.userStack running) tids
  m.threadStacks (m.kernelStack running) tids ++
    ((if kernelStack = 0 then [] else [(m.task running, kernelStack)]) ++
      if userStack = 0 then [] else [(m.task running, userStack)])

def destroyStacks : List (P × Dword) :=
  m.threadStacks (m.kernelStack running)
    (others running (m.threads processo) (List.finRange 10))

omit [DecidableEq P] [DecidableEq T] in
/-- A page below those that the allocator hands out, of the DMA area, or of a page table
of the kernel. -/
def Foreign (page : Nat) : Prop :=
  page < m.pages.space.pagine ∨
    (dmaMemoryStart ≤ page ∧ page < dmaMemoryStart + dmaMemoryBlockNumber) ∨
    ∃ k : Index, k.val < m.pages.space.kernelDirs ∧ page = m.pages.tablePage (.kernel k)

omit [DecidableEq P] [DecidableEq T] in
instance : DecidablePred m.Foreign := fun page =>
  inferInstanceAs (Decidable (page < _ ∨ (_ ∧ _) ∨ ∃ _ : Index, _))

omit [DecidableEq T] in
/-- The slots behind the kernel's part of the directory. -/
def ownSlots : List (Slot P) := m.pages.dirSlots processo (dirsFrom m.pages.space.kernelDirs)

omit [DecidableEq T] in
def mappedPages : List Nat := (m.ownSlots processo).filterMap m.pages.frame

omit [DecidableEq P] [DecidableEq T] in
/-- The pages of the messages, and of the page directory. -/
def otherPages : List Nat :=
  m.queuedPages processo ++ [m.msgPage processo] ++ [m.pageDir processo]

omit [DecidableEq T] in
/-- The page tables and the other pages. -/
def ownTables : List Nat :=
  m.pages.dirTables processo (dirsFrom m.pages.space.kernelDirs) ++ m.otherPages processo

omit [DecidableEq T] in
/-- The pages that the process owns; of the mapped ones, those that are not the kernel's. -/
def owned : List Nat :=
  (m.mappedPages processo).filter (fun page => ¬ m.Foreign page) ++ m.ownTables processo

omit [DecidableEq T] in
/-- These are the pages that the process owns, each once, and none is the kernel's. -/
structure ExactPages : Prop where
  perm : pages.Perm (m.owned processo)
  nodup : pages.Nodup
  own : ∀ page ∈ pages, ¬ m.Foreign page

omit [DecidableEq T] in
/-- From `m` to `m'` exactly what the process owns was passed to `freepage`. -/
def Exact : Prop :=
  ∃ pages, m'.pages.freed = m.pages.freed ++ pages ∧ m.ExactPages processo pages

/-- `Exit_Process` by one thread and `Destroy_Process` by another are exact. -/
structure TornDown (exiting destroying : T) : Prop where
  exit : ∃ m', m.exitProcess exiting cfg = some m' ∧ m.Exact m' (m.task exiting)
  destroy : ∃ m', m.destroyProcess destroying (m.task exiting) cfg = some (.success, m') ∧
    m.Exact m' (m.task exiting)

omit [DecidableEq T] in
/-- The stacks are mapped in the process's own part, and no two of them share a page. -/
structure OwnStacks (areas : List (P × Dword)) : Prop where
  nodup : (m.pages.stackSlots areas).Nodup
  own : ∀ s ∈ m.pages.stackSlots areas, s ∈ m.ownSlots processo ∧ (m.pages.entry s).present

/-- The machines on which both are. -/
structure Sound (exiting destroying : T) : Prop where
  kernelDirs : m.pages.space.kernelDirs ≤ 31
  high : ∀ t : Index, m.pages.space.kernelDirs ≤ t.val → t.val < 0x20 →
    m.pages.space.present (m.task exiting) t = false
  ends : ∀ i tid, m.threads (m.task exiting) i = some tid → Ends cfg m tid
  exitStacks : m.OwnStacks (m.task exiting) (m.exitStacks exiting)
  destroyStacks : m.OwnStacks (m.task exiting) (m.destroyStacks destroying (m.task exiting))
  nodup : (m.mappedPages (m.task exiting) ++ m.ownTables (m.task exiting)).Nodup
  own : ∀ page ∈ m.mappedPages (m.task exiting) ++ m.ownTables (m.task exiting),
    ¬ m.Foreign page

/-- What `Create_Process` and the allocator see to: a directory has at most 32 entries of the
kernel, and a page table of the process is no page of a stack. -/
structure Apart (destroying : T) : Prop where
  kernelDirs : m.pages.space.kernelDirs ≤ 0x20
  tables : ∀ s ∈ m.pages.stackSlots (m.destroyStacks destroying processo), m.pages.Mapped s →
    m.pages.base s ∉ m.pages.dirTables processo (dirsFrom m.pages.space.kernelDirs)

omit [DecidableEq T] in
/-- What a teardown passes to `freepage` that frees these stacks and walks from `first`. -/
def passedPages (areas : List (P × Dword)) (first : Nat) : List Nat :=
  m.pages.passed processo (m.pages.stackSlots areas) (dirsFrom first) ++ m.otherPages processo

end

variable {cfg : Config P T} {m m' : Machine P T} {running : T} {processo : P} {pages : List Nat}
  {areas : List (P × Dword)} {first : Nat}

/-! ### What the calls pass to `freepage` -/

theorem nodup_dirsFrom (first : Nat) : (dirsFrom first).Nodup := (List.nodup_finRange _).filter _

omit [DecidableEq T] in
/-- The call succeeds if and only if `c` holds and the stacks can be freed, and then passes
the pages of the process to `freepage`. -/
def Passes (m : Machine P T) (processo : P) (areas : List (P × Dword)) (first : Nat) (c : Prop)
    (call : Option (Machine P T)) : Prop :=
  ∃ m', Gives call (c ∧ m.pages.Freeable (m.pages.stackSlots areas)) m' ∧
    (m.pages.Freeable (m.pages.stackSlots areas) → ∃ pages,
      m'.pages.freed = m.pages.freed ++ pages ∧
        pages.Perm (m.passedPages processo areas first))

theorem freeMessages_after (threads : P → ThreadTable T) (slots : List (Slot P))
    (kernelStack userStack : Dword) :
    (m.after running (m.pages.freeSlots slots) threads kernelStack userStack).freeMessages
      processo = m.after running ((m.queuedPages processo ++ [m.msgPage processo]).foldl
        Pages.freepage (m.pages.freeSlots slots)) threads kernelStack userStack := by
  rw [List.foldl_append]
  rfl

omit [DecidableEq T] in
/-- The end of a call: the stacks `l'` are freed after the messages. -/
theorem passes_of_gives {call : Option (Machine P T)} {c : Prop} {l l' : List (Slot P)}
    {messages : List Nat} (hcall : Gives call (c ∧ m.pages.Freeable (l ++ l')) m')
    (hslots : m.pages.stackSlots areas = l ++ l')
    (hmessages : messages = m.queuedPages processo ++ [m.msgPage processo])
    (hpages : m'.pages = (((messages.foldl Pages.freepage (m.pages.freeSlots l)).freeSlots
      l').freeTables processo (dirsFrom first)).freepage (m.pageDir processo)) :
    m.Passes processo areas first c call := by
  refine ⟨m', hslots ▸ hcall, fun hfreeable => ?_⟩
  rw [hslots] at hfreeable
  obtain ⟨pages, hfreed, hperm⟩ :=
    Pages.freed_teardown processo hfreeable (nodup_dirsFrom first) messages
  refine ⟨pages ++ [m.pageDir processo], ?_, ?_⟩
  · rw [hpages, Pages.freepage, hfreed, List.append_assoc]
  · rw [passedPages, otherPages, hslots, ← hmessages, ← List.append_assoc]
    exact hperm.append_right _

theorem exitProcess_passes (cfg : Config P T) (m : Machine P T) (running : T) :
    m.Passes (m.task running) (m.exitStacks running) 31
      (∀ tid ∈ others running (m.threads (m.task running)) (List.finRange 10), Ends cfg m tid)
      (m.exitProcess running cfg) := by
  let tids := others running (m.threads (m.task running)) (List.finRange 10)
  let kernelStack := kernelLeft (m.kernelStack running) tids
  let userStack := m.userLeft (m.userStack running) tids
  let slots := m.pages.stackSlots (m.threadStacks (m.kernelStack running) tids)
  let messages := m.queuedPages (m.task running) ++ [m.msgPage (m.task running)]
  let pages := messages.foldl Pages.freepage (m.pages.freeSlots slots)
  obtain ⟨htable, hentry, -, -⟩ := Pages.freepages_same (m := m.pages.freeSlots slots) messages
  have hslot : pages.slot = m.pages.slot := by
    funext p a
    simp only [Pages.slot, pages, htable, Pages.table_freeSlots]
  obtain ⟨threads', hthreads⟩ := exitThreads_gives cfg m running (m.task running) m.pages
    m.threads (m.kernelStack running) (m.userStack running) (List.nodup_finRange 10)
  rw [after_self] at hthreads
  have hkernel := freeKernelStack_gives m running pages threads' kernelStack userStack running
  rw [Function.update_self] at hkernel
  have huser := freeUserStack_gives m running (pages.freeSlots (pages.stackSlots
    (if kernelStack = 0 then [] else [(m.task running, kernelStack)]))) threads' 0 userStack
    (Function.update_self running userStack m.userStack)
  have hrest := Gives.bind hkernel (f := fun m' => (m'.freeUserStack running running).bind fun m' =>
      some { m'.freeSpace (m.task running) 31 with
        active := Function.update m'.active (m.task running) false }) (Gives.map huser)
  rw [← freeMessages_after] at hrest
  have hcall := Gives.bind hthreads (f := fun m' => m'.exitSpace running (m.task running)) hrest
  rw [Pages.stackSlots_congr Pages.slot_freeSlots, Pages.stackSlots_congr hslot,
    Pages.stackSlots_congr hslot] at hcall
  have hslots : m.pages.stackSlots (m.exitStacks running) = slots ++ (m.pages.stackSlots
      (if kernelStack = 0 then [] else [(m.task running, kernelStack)]) ++ m.pages.stackSlots
        (if userStack = 0 then [] else [(m.task running, userStack)])) := by
    rw [← Pages.stackSlots_append, ← Pages.stackSlots_append]
    rfl
  refine passes_of_gives (hcall.congr ?_ rfl) hslots rfl ?_
  · rw [← Pages.freeable_append, Pages.freeable_congr hentry, and_assoc, ← Pages.freeable_append]
  · rw [Pages.freeSlots_append]
    rfl

omit [DecidableEq P] [DecidableEq T] in
theorem threadStacks_congr (htask : m'.task = m.task)
    (hkernelStack : m'.kernelStack = m.kernelStack) (huserStack : m'.userStack = m.userStack)
    (kernelStack : Dword) (tids : List T) :
    m'.threadStacks kernelStack tids = m.threadStacks kernelStack tids := by
  induction tids generalizing kernelStack with
  | nil => rfl
  | cons tid rest ih =>
    rw [threadStacks, threadStacks, ih, stacksOf, stacksOf, htask, hkernelStack, huserStack]

theorem destroyProcess_passes (cfg : Config P T) (hactive : m.active processo)
    (hrunning : ∀ i, m.threads processo i ≠ some running) :
    ∃ call, m.destroyProcess running processo cfg = call.map (Prod.mk .success) ∧
      m.Passes processo (m.destroyStacks running processo) 0x20
        (∀ tid ∈ others running (m.threads processo) (List.finRange 10), Ends cfg m tid) call := by
  let dead : Machine P T := { m with active := Function.update m.active processo false }
  obtain ⟨threads', hthreads⟩ := destroyThreads_gives cfg dead running processo m.pages m.threads
    (m.kernelStack running) (m.userStack running) hrunning (List.finRange 10)
  have hself : dead.after running m.pages m.threads (m.kernelStack running)
      (m.userStack running) = dead := after_self
  have hstacks : dead.threadStacks (m.kernelStack running)
      (others running (m.threads processo) (List.finRange 10)) =
        m.destroyStacks running processo := by
    rw [destroyStacks]
    apply threadStacks_congr <;> rfl
  rw [hself, hstacks] at hthreads
  have hcall := Gives.map (f := fun m' : Machine P T =>
    (m'.freeMessages processo).freeSpace processo 0x20) hthreads
  refine ⟨_, ?_, passes_of_gives (hcall.congr ?_ rfl) (List.append_nil _).symm rfl ?_⟩
  · rw [destroyProcess, if_neg (by simp [hactive])]
    cases dead.destroyThreads running processo cfg (List.finRange 10) with
    | none => rfl
    | some m' => rfl
  · rw [List.append_nil]
    rfl
  · rw [freeMessages_after, freeSpace, Pages.freeSlots_nil]
    simp only [after, dead, queuedPages]

/-! ### Exact lists of pages -/

omit [DecidableEq T] in
theorem ExactPages.of_perm {pages' : List Nat} (h : m.ExactPages processo pages)
    (hperm : pages'.Perm pages) : m.ExactPages processo pages' where
  perm := hperm.trans h.perm
  nodup := hperm.nodup_iff.mpr h.nodup
  own page hpage := h.own page (hperm.mem_iff.mp hpage)

omit [DecidableEq T] in
theorem exact_iff {pages' : List Nat} (hfreed : m'.pages.freed = m.pages.freed ++ pages)
    (hperm : pages.Perm pages') : m.Exact m' processo ↔ m.ExactPages processo pages' := by
  constructor
  · rintro ⟨pages'', hfreed', hexact⟩
    obtain rfl := List.append_cancel_left (hfreed.symm.trans hfreed')
    exact hexact.of_perm hperm.symm
  · exact fun hexact => ⟨pages, hfreed, hexact.of_perm hperm⟩

omit [DecidableEq T] in
/-- A call that passes pages is exact if it succeeds and these pages are. -/
theorem Passes.exact_iff {call : Option (Machine P T)} {c : Prop}
    (h : m.Passes processo areas first c call) : (∃ m', call = some m' ∧ m.Exact m' processo) ↔
      c ∧ m.pages.Freeable (m.pages.stackSlots areas) ∧
        m.ExactPages processo (m.passedPages processo areas first) := by
  obtain ⟨m', hcall, hpasses⟩ := h
  constructor
  · rintro ⟨m'', hm'', hexact⟩
    obtain ⟨hc, hfreeable⟩ := hcall.holds hm''
    obtain ⟨pages, hfreed, hperm⟩ := hpasses hfreeable
    obtain rfl := hcall.eq hm''
    exact ⟨hc, hfreeable, (Machine.exact_iff hfreed hperm).mp hexact⟩
  · rintro ⟨hc, hfreeable, hexact⟩
    obtain ⟨pages, hfreed, hperm⟩ := hpasses hfreeable
    exact ⟨m', hcall.eq_some ⟨hc, hfreeable⟩, (Machine.exact_iff hfreed hperm).mpr hexact⟩

omit [DecidableEq P] [DecidableEq T] in
theorem table_own {t : Index} (ht : m.pages.space.kernelDirs ≤ t.val) :
    m.pages.space.table processo t =
      if m.pages.space.present processo t then .user processo t else .pageZero :=
  if_neg (Nat.not_lt.mpr ht)

omit [DecidableEq P] [DecidableEq T] in
theorem table_kernel {t : Index} (ht : t.val < m.pages.space.kernelDirs) :
    m.pages.space.table processo t = .kernel t := if_pos ht

omit [DecidableEq T] in
/-- A walk sees the process's own page tables if the kernel's part ends before it and the
entries that it leaves out are not present. -/
theorem used_own (hkernel : m.pages.space.kernelDirs ≤ first) (hfirst : first ≤ 0x20)
    (hhigh : ∀ t : Index, m.pages.space.kernelDirs ≤ t.val → t.val < 0x20 →
      m.pages.space.present processo t = false) :
    m.pages.used processo (dirsFrom first) =
      m.pages.used processo (dirsFrom m.pages.space.kernelDirs) := by
  simp only [Pages.used, dirsFrom, List.filter_filter]
  apply List.filter_congr
  intro t _
  by_cases hused : m.pages.space.table processo t = .pageZero
  · simp [hused]
  · have hiff : first ≤ t.val ↔ m.pages.space.kernelDirs ≤ t.val := by
      constructor
      · exact hkernel.trans
      · intro ht
        by_contra hlt
        have habsent := hhigh t ht (by omega)
        apply hused
        rw [table_own ht, habsent]
        rfl
    simp [hiff]

omit [DecidableEq T] in
theorem passedPages_own (hused : m.pages.used processo (dirsFrom first) =
    m.pages.used processo (dirsFrom m.pages.space.kernelDirs)) :
    m.passedPages processo areas first = m.mappedPages processo ++
      (outside (m.pages.stackSlots areas) (m.ownSlots processo)).map m.pages.base ++
        m.ownTables processo := by
  have hslots : m.pages.dirSlots processo (dirsFrom first) = m.ownSlots processo := by
    rw [ownSlots, Pages.dirSlots, Pages.dirSlots, hused]
  have htables : m.pages.dirTables processo (dirsFrom first) =
      m.pages.dirTables processo (dirsFrom m.pages.space.kernelDirs) := by
    rw [Pages.dirTables, Pages.dirTables, hused]
  rw [passedPages, Pages.passed, hslots, htables, mappedPages, ownTables, List.append_assoc]

omit [DecidableEq T] in
/-- A walk over the process's own page tables is exact if the stacks are its own, and its
pages are distinct and not the kernel's. -/
theorem exactPages_iff (hused : m.pages.used processo (dirsFrom first) =
    m.pages.used processo (dirsFrom m.pages.space.kernelDirs))
    (hfreeable : m.pages.Freeable (m.pages.stackSlots areas)) :
    m.ExactPages processo (m.passedPages processo areas first) ↔
      m.OwnStacks processo areas ∧ (m.mappedPages processo ++ m.ownTables processo).Nodup ∧
        ∀ page ∈ m.mappedPages processo ++ m.ownTables processo, ¬ m.Foreign page := by
  rw [passedPages_own hused]
  constructor
  · intro h
    have hlength := h.perm.length_eq
    have hfilter := List.length_filter_le (fun page => ¬ m.Foreign page) (m.mappedPages processo)
    simp only [owned, List.length_append, List.length_map] at hlength
    have hnone : outside (m.pages.stackSlots areas) (m.ownSlots processo) = [] :=
      List.eq_nil_of_length_eq_zero (by omega)
    have hnodup := h.nodup
    have hown := h.own
    rw [hnone, List.map_nil, List.append_nil] at hnodup hown
    refine ⟨⟨hfreeable.1, fun s hs => ⟨outside_eq_nil.mp hnone s hs, (hfreeable.2 s hs).2⟩⟩,
      hnodup, hown⟩
  · rintro ⟨hstacks, hnodup, hown⟩
    have hnone : outside (m.pages.stackSlots areas) (m.ownSlots processo) = [] :=
      outside_eq_nil.mpr fun s hs => (hstacks.own s hs).1
    have hall : (m.mappedPages processo).filter (fun page => ¬ m.Foreign page) =
        m.mappedPages processo := by
      apply List.filter_eq_self.mpr
      intro page hpage
      exact decide_eq_true (hown page (List.mem_append_left _ hpage))
    rw [hnone, List.map_nil, List.append_nil]
    refine ⟨?_, hnodup, hown⟩
    rw [owned, hall]

/-! ### What an exact teardown needs -/

theorem mem_dirsFrom {t : Index} : t ∈ dirsFrom first ↔ first ≤ t.val := by simp [dirsFrom]

omit [DecidableEq T] in
/-- An entry of the kernel that the walk reaches would pass a page table of the kernel. -/
theorem kernelDirs_le_of_exact (h : m.ExactPages processo (m.passedPages processo areas first))
    (hfirst : first < 1024) : m.pages.space.kernelDirs ≤ first := by
  by_contra hle
  let t : Index := ⟨first, hfirst⟩
  have hlt : t.val < m.pages.space.kernelDirs := Nat.lt_of_not_le hle
  have htable : m.pages.space.table processo t = .kernel t := table_kernel hlt
  have hused : t ∈ m.pages.used processo (dirsFrom first) := by
    rw [Pages.mem_used, htable]
    exact ⟨mem_dirsFrom.mpr le_rfl, nofun⟩
  have hpassed : m.pages.tablePage (.kernel t) ∈ m.passedPages processo areas first := by
    apply List.mem_append_left
    apply List.mem_append_right
    exact Pages.mem_dirTables.mpr ⟨t, hused, by rw [htable]⟩
  exact h.own _ hpassed (.inr (.inr ⟨t, hlt, rfl⟩))

/-- The page table of a lower entry would be left out. -/
theorem high_of_exact (hapart : m.Apart processo running)
    (hfreeable : m.pages.Freeable (m.pages.stackSlots (m.destroyStacks running processo)))
    (h : m.ExactPages processo
      (m.passedPages processo (m.destroyStacks running processo) 0x20))
    (t : Index) (hown : m.pages.space.kernelDirs ≤ t.val) (hlow : t.val < 0x20) :
    m.pages.space.present processo t = false := by
  by_contra hpresent
  have huser : m.pages.space.table processo t = .user processo t := by
    rw [table_own hown, if_pos (by simpa using hpresent)]
  have hused : t ∈ m.pages.used processo (dirsFrom m.pages.space.kernelDirs) := by
    rw [Pages.mem_used, huser]
    exact ⟨mem_dirsFrom.mpr hown, nofun⟩
  let page := m.pages.tablePage (m.pages.space.table processo t)
  have htables : page ∈ m.pages.dirTables processo (dirsFrom m.pages.space.kernelDirs) :=
    Pages.mem_dirTables.mpr ⟨t, hused, rfl⟩
  have howned : page ∈ m.owned processo :=
    List.mem_append_right _ (List.mem_append_left _ htables)
  -- Of what the process owns, the page is a page table and nothing else.
  obtain ⟨-, hnodup, hdisjoint⟩ := List.nodup_append'.mp (h.perm.nodup_iff.mp h.nodup)
  obtain ⟨htablesNodup, -, hother⟩ := List.nodup_append'.mp hnodup
  have hpassed := h.perm.mem_iff.mpr howned
  rw [passedPages, Pages.passed, List.mem_append, List.mem_append, List.mem_append] at hpassed
  obtain ((hmapped | hstack) | htable) | hpage := hpassed
  · obtain ⟨s, hs, hframe⟩ := List.mem_filterMap.mp hmapped
    obtain ⟨hne, t', ht', htable'⟩ := Pages.mem_dirSlots.mp hs
    have hslot : s ∈ m.ownSlots processo := Pages.mem_dirSlots.mpr
      ⟨hne, t', mem_dirsFrom.mpr (hapart.kernelDirs.trans (mem_dirsFrom.mp ht')), htable'⟩
    have hforeign : ¬ m.Foreign page := h.own page (h.perm.mem_iff.mpr howned)
    have hfilter : page ∈ (m.mappedPages processo).filter fun page => ¬ m.Foreign page :=
      List.mem_filter.mpr ⟨List.mem_filterMap.mpr ⟨s, hslot, hframe⟩, decide_eq_true hforeign⟩
    exact hdisjoint hfilter (List.mem_append_left _ htables)
  · obtain ⟨s, hs, hbase⟩ := List.mem_map.mp hstack
    have hmem := (mem_outside.mp hs).1
    exact hapart.tables s hmem (hfreeable.2 s hmem) (hbase ▸ htables)
  · obtain ⟨t', ht', heq⟩ := Pages.mem_dirTables.mp htable
    have hdirs := mem_dirsFrom.mp (Pages.mem_used.mp ht').1
    have hused' : t' ∈ m.pages.used processo (dirsFrom m.pages.space.kernelDirs) :=
      Pages.mem_used.mpr
        ⟨mem_dirsFrom.mpr (hapart.kernelDirs.trans hdirs), (Pages.mem_used.mp ht').2⟩
    obtain rfl := List.inj_on_of_nodup_map htablesNodup hused' hused heq
    omega
  · exact hother htables hpage

/-! ### Exact teardowns -/

theorem tornDown_iff {exiting destroying : T} (hactive : m.active (m.task exiting))
    (hdestroying : ∀ i, m.threads (m.task exiting) i ≠ some destroying) :
    m.TornDown cfg exiting destroying ↔
      ((∀ tid ∈ others exiting (m.threads (m.task exiting)) (List.finRange 10), Ends cfg m tid) ∧
        m.pages.Freeable (m.pages.stackSlots (m.exitStacks exiting)) ∧
        m.ExactPages (m.task exiting)
          (m.passedPages (m.task exiting) (m.exitStacks exiting) 31)) ∧
      (∀ tid ∈ others destroying (m.threads (m.task exiting)) (List.finRange 10),
        Ends cfg m tid) ∧
        m.pages.Freeable (m.pages.stackSlots (m.destroyStacks destroying (m.task exiting))) ∧
        m.ExactPages (m.task exiting)
          (m.passedPages (m.task exiting) (m.destroyStacks destroying (m.task exiting)) 0x20) := by
  obtain ⟨call, hcall, hpasses⟩ := destroyProcess_passes cfg hactive hdestroying
  rw [← (exitProcess_passes cfg m exiting).exact_iff, ← hpasses.exact_iff]
  constructor
  · intro h
    obtain ⟨m', hm', hexact⟩ := h.destroy
    rw [hcall, Option.map_eq_some_iff] at hm'
    obtain ⟨m'', hm'', heq⟩ := hm'
    obtain rfl := (Prod.mk.inj heq).2
    exact ⟨h.exit, m'', hm'', hexact⟩
  · rintro ⟨hexit, m', hm', hexact⟩
    exact ⟨hexit, m', by rw [hcall, hm']; rfl, hexact⟩

omit [DecidableEq P] in
theorem mem_others {threads : ThreadTable T} {tid : T} :
    tid ∈ others running threads (List.finRange 10) ↔
      tid ≠ running ∧ ∃ i, threads i = some tid := by
  simp only [others, List.mem_filterMap, List.mem_finRange, true_and]
  constructor
  · rintro ⟨i, hi⟩
    obtain ⟨hthread, hne⟩ := Option.filter_eq_some_iff.mp hi
    exact ⟨by simpa using hne, i, hthread⟩
  · rintro ⟨hne, i, hi⟩
    exact ⟨i, Option.filter_eq_some_iff.mpr ⟨hi, by simpa using hne⟩⟩

omit [DecidableEq T] in
theorem OwnStacks.freeable (h : m.OwnStacks processo areas) :
    m.pages.Freeable (m.pages.stackSlots areas) :=
  ⟨h.nodup, fun s hs => ⟨(Pages.mem_dirSlots.mp (h.own s hs).1).1, (h.own s hs).2⟩⟩

theorem Sound.tornDown {exiting destroying : T} (hactive : m.active (m.task exiting))
    (hdestroying : ∀ i, m.threads (m.task exiting) i ≠ some destroying)
    (h : Sound cfg m exiting destroying) : m.TornDown cfg exiting destroying := by
  have hends (running : T) : ∀ tid ∈ others running (m.threads (m.task exiting))
      (List.finRange 10), Ends cfg m tid := by
    intro tid htid
    obtain ⟨-, i, hi⟩ := mem_others.mp htid
    exact h.ends i tid hi
  have hexit := used_own h.kernelDirs (by omega) h.high
  have hdestroy := used_own (h.kernelDirs.trans (by omega)) le_rfl h.high
  apply (tornDown_iff hactive hdestroying).mpr
  refine ⟨⟨hends exiting, h.exitStacks.freeable, ?_⟩, hends destroying,
    h.destroyStacks.freeable, ?_⟩
  · exact (exactPages_iff hexit h.exitStacks.freeable).mpr ⟨h.exitStacks, h.nodup, h.own⟩
  · exact (exactPages_iff hdestroy h.destroyStacks.freeable).mpr
      ⟨h.destroyStacks, h.nodup, h.own⟩

theorem TornDown.sound {exiting destroying : T} (hactive : m.active (m.task exiting))
    (hdestroying : ∀ i, m.threads (m.task exiting) i ≠ some destroying)
    (hapart : m.Apart (m.task exiting) destroying) (h : m.TornDown cfg exiting destroying) :
    Sound cfg m exiting destroying := by
  obtain ⟨⟨-, hexitFreeable, hexit⟩, hends, hfreeable, hdestroy⟩ :=
    (tornDown_iff hactive hdestroying).mp h
  have hkernelDirs := kernelDirs_le_of_exact hexit (by decide)
  have hhigh := high_of_exact hapart hfreeable hdestroy
  obtain ⟨hexitStacks, -, -⟩ :=
    (exactPages_iff (used_own hkernelDirs (by omega) hhigh) hexitFreeable).mp hexit
  obtain ⟨hdestroyStacks, hnodup, hown⟩ :=
    (exactPages_iff (used_own hapart.kernelDirs le_rfl hhigh) hfreeable).mp hdestroy
  refine ⟨hkernelDirs, hhigh, ?_, hexitStacks, hdestroyStacks, hnodup, hown⟩
  intro i tid hi
  have hne : tid ≠ destroying := fun heq => hdestroying i (heq ▸ hi)
  exact hends tid (mem_others.mpr ⟨hne, i, hi⟩)

/-- For a process and a caller of `Destroy_Process` that is none of its threads. -/
theorem teardown_exact {exiting destroying : T} (hactive : m.active (m.task exiting))
    (hdestroying : ∀ i, m.threads (m.task exiting) i ≠ some destroying) :
    (Sound cfg m exiting destroying → m.TornDown cfg exiting destroying) ∧
      (m.Apart (m.task exiting) destroying → m.TornDown cfg exiting destroying →
        Sound cfg m exiting destroying) :=
  ⟨Sound.tornDown hactive hdestroying, TornDown.sound hactive hdestroying⟩

/-! ### DMA blocks -/

omit [DecidableEq T] in
theorem withTable_ok {space space' : Space P} {addr : Dword}
    (h : space.withTable processo addr = .ok space')
    (hown : space.kernelDirs ≤ (dirIndex addr).val) :
    space'.table processo (dirIndex addr) = .user processo (dirIndex addr) ∧
      space'.kernelDirs = space.kernelDirs := by
  simp only [Space.withTable] at h
  split at h
  · next hold =>
    obtain rfl := Except.ok.inj h
    have hpresent := hold.resolve_left (Nat.not_lt.mpr hown)
    exact ⟨by rw [Space.table, if_neg (Nat.not_lt.mpr hown), if_pos hpresent], rfl⟩
  · split at h
    · cases h
    · obtain rfl := Except.ok.inj h
      exact ⟨by rw [Space.table, if_neg (Nat.not_lt.mpr hown), if_pos (by simp)], rfl⟩

omit [DecidableEq T] in
theorem map_ok {space space' : Space P} {addr : Dword} {page : Nat}
    (haddr : space.lastUsedPage processo + 4096 = addr)
    (hown : space.kernelDirs ≤ (dirIndex addr).val) (h : space.map processo page = .ok space') :
    space'.table processo (dirIndex addr) = .user processo (dirIndex addr) ∧
      space'.kernelDirs = space.kernelDirs ∧
      space'.tables (.user processo (dirIndex addr)) (tableIndex addr) = ⟨page, true⟩ := by
  rw [Space.map, haddr] at h
  cases htable : { space with
      lastUsedPage := Function.update space.lastUsedPage processo addr }.withTable
        processo addr with
  | error e =>
    rw [htable] at h
    cases h
  | ok mapped =>
    rw [htable] at h
    obtain rfl := Except.ok.inj h
    obtain ⟨huser, hkernelDirs⟩ := withTable_ok htable hown
    refine ⟨huser, hkernelDirs, ?_⟩
    simp only [Space.setPte, huser, Function.update_self]

omit [DecidableEq T] in
theorem mapPage_ok {pages pages' : Pages P} {page : Nat}
    (hown : pages.space.kernelDirs ≤ (dirIndex (pages.space.lastUsedPage processo + 4096)).val)
    (h : pages.mapPage processo page = some pages') :
    ∃ s : Slot P, s ∈ pages'.dirSlots processo (dirsFrom pages'.space.kernelDirs) ∧
      pages'.frame s = some page := by
  rw [Pages.mapPage] at h
  cases hmap : pages.space.map processo page with
  | error e =>
    rw [hmap] at h
    cases h
  | ok space' =>
    rw [hmap] at h
    obtain rfl := Option.some.inj h
    obtain ⟨huser, hkernelDirs, hentry⟩ := map_ok rfl hown hmap
    refine ⟨(.user processo _, _), ?_, (if_pos (congrArg Pte.present hentry)).trans
      (congrArg some (congrArg Pte.pageBaseAddr hentry))⟩
    apply Pages.mem_dirSlots.mpr
    exact ⟨nofun, _, mem_dirsFrom.mpr (hkernelDirs.le.trans hown), huser⟩

/-- A block stays mapped, and the teardown passes it to `freepage`. -/
theorem not_sound_of_dma {exiting destroying : T} (hfree : ∃ i, m.blockUsed i = false)
    (hown : m.pages.space.kernelDirs ≤
      (dirIndex (m.pages.space.lastUsedPage (m.task exiting) + 4096)).val)
    (h : m.dmaMemoryGetBlock exiting = some m') : ¬ Sound cfg m' exiting destroying := by
  intro hsound
  obtain ⟨i, hi⟩ := hfree
  rw [dmaMemoryGetBlock] at h
  split at h
  · next hnone =>
    have hused := List.find?_eq_none.mp hnone i (List.mem_finRange i)
    simp [hi] at hused
  · next j _ =>
    obtain ⟨pages, hpages, hm'⟩ := Option.bind_eq_some_iff.mp h
    obtain rfl := Option.some.inj hm'
    obtain ⟨s, hs, hframe⟩ := mapPage_ok hown hpages
    have hmapped : dmaMemoryStart + j.val ∈ (pages.dirSlots (m.task exiting)
        (dirsFrom pages.space.kernelDirs)).filterMap pages.frame :=
      List.mem_filterMap.mpr ⟨s, hs, hframe⟩
    apply hsound.own (dmaMemoryStart + j.val) (List.mem_append_left _ hmapped)
    exact .inr (.inl ⟨Nat.le_add_right .., Nat.add_lt_add_left j.isLt _⟩)

end Machine

/-! ### Two machines -/

local instance instNeZeroFour : NeZero 4 := ⟨by decide⟩

/-- Eight processes; thread 3 is the kernel's. -/
def few : Config Bool (Fin 4) where
  processi := List.replicate 8 false
  threads := List.finRange 4
  pidKernel := false
  kernelThread := 3

/-- Threads 0 and 1 belong to process `true`, which has two pages of code, their stacks and a
message; thread 2 belongs to another process. -/
def resident : Machine Bool (Fin 4) where
  pages :=
    { space :=
        { kernelDirs := 4
          present := fun p t => p && t.val == 32
          tables := fun table i =>
            if table = .user true 32 then ⟨0x200 + i.val, i.val < 10⟩ else ⟨0, false⟩
          lastUsedPage := fun _ => 0x8009000
          pagine := 0x101
          mem := Memory.meminit 0x1000000 fun _ => .freepage }
      tablePage := fun table =>
        match table with
        | .kernel k => 0xfff - k.val
        | _ => 0xf00
      freed := [] }
  pageDir := fun _ => 0x300
  msgPage := fun _ => 0x301
  msgqueue := fun _ => { cells := fun _ => ⟨5, 12, 0x302⟩, head := 0, tail := 1 }
  threads := fun p i => if p then if i = 0 then some 0 else if i = 1 then some 1 else none else none
  active := fun _ => true
  task := fun t => t < 2
  pid := fun t => if t < 2 then 6 else 5
  kernelStack := fun t => if t = 0 then 0x8002000 else if t = 1 then 0x8006000 else 0xa000000
  userStack := fun t => if t = 0 then 0x8004000 else if t = 1 then 0x8008000 else 0xa002000
  blockUsed := fun _ => false

theorem resident_used : resident.pages.used true (dirsFrom 4) = [32] := by decide +kernel

theorem resident_ownSlots : resident.ownSlots true = Pages.tableSlots (.user true 32) := by
  have hslots : resident.ownSlots true = (resident.pages.used true (dirsFrom 4)).flatMap
      fun t => Pages.tableSlots (resident.pages.space.table true t) := rfl
  rw [hslots, resident_used, List.flatMap_singleton]
  rfl

theorem resident_pages : resident.mappedPages true ++ resident.ownTables true =
    (List.range 10).map (0x200 + ·) ++ [0xf00, 0x302, 0x301, 0x300] := by
  have htables : resident.ownTables true = (resident.pages.used true (dirsFrom 4)).map
      (fun t => resident.pages.tablePage (resident.pages.space.table true t)) ++
        resident.otherPages true := rfl
  rw [Machine.mappedPages, resident_ownSlots, htables, resident_used]
  decide +kernel

theorem resident_sound : Machine.Sound few resident 0 2 where
  kernelDirs := by decide
  high := by decide +kernel
  ends := by unfold Machine.Ends; decide +kernel
  exitStacks := ⟨by decide +kernel, by
    have htask : resident.task 0 = true := rfl
    rw [htask, resident_ownSlots]
    decide +kernel⟩
  destroyStacks := ⟨by decide +kernel, by
    have htask : resident.task 0 = true := rfl
    rw [htask, resident_ownSlots]
    decide +kernel⟩
  nodup := by
    have htask : resident.task 0 = true := rfl
    rw [htask, resident_pages]
    decide +kernel
  own := by
    have htask : resident.task 0 = true := rfl
    rw [htask, resident_pages]
    intro page hpage hforeign
    have hrange : ∀ page ∈ (List.range 10).map (0x200 + ·) ++ [0xf00, 0x302, 0x301, 0x300],
        0x200 ≤ page ∧ page < 0xf01 := by decide
    have := hrange page hpage
    obtain hlow | ⟨-, hdma⟩ | ⟨k, hk, htable⟩ := hforeign
    · have hlow' : page < 0x101 := hlow
      omega
    · have hdma' : page < 0x20 := hdma
      omega
    · have hk' : k.val < 4 := hk
      have htable' : page = 0xfff - k.val := htable
      omega

/-- Thread 0 has got a DMA block. -/
def withBlock : Machine Bool (Fin 4) := (resident.dmaMemoryGetBlock 0).getD resident

theorem teardown_passes_dma_block :
    resident.dmaMemoryGetBlock 0 = some withBlock ∧ ¬ withBlock.TornDown few 0 2 := by
  have hblock : resident.dmaMemoryGetBlock 0 = some withBlock := rfl
  refine ⟨hblock, fun htorn => ?_⟩
  have hapart : withBlock.Apart true 2 := by
    refine ⟨by decide +kernel, ?_⟩
    unfold Pages.Mapped
    decide +kernel
  have hsound := htorn.sound (by decide) (by decide) hapart
  exact Machine.not_sound_of_dma ⟨0, rfl⟩ (by decide +kernel) hblock hsound

theorem teardown_exact_resident : resident.TornDown few 0 2 :=
  (Machine.teardown_exact (by decide) (by decide)).1 resident_sound

end OsdevArchive.Osso.Teardown
