import OsdevArchive.Osso.MemAlloc

/-!
`Create_Process_From_ELF` of OSSO (`kernel/process.c`), as far as the address space of the new
process goes: the segments of the program, the dynamic loader behind them, and the stacks that
`Create_Thread` puts behind both. The loop over the dynamic section, which only reads, and the
process and thread descriptors are not modelled. The images are in memory that the load does
not take. A page table that `getpagetable` has no page for is not missed: the load goes on with
page 0 in its place, and returns the process.
-/

namespace OsdevArchive.Osso.ElfLoader

open OsdevArchive.Lib.Stores OsdevArchive.Osso.AddressSpace
open OsdevArchive.Osso.PageTables hiding Request
open OsdevArchive.Osso.Memory (Dword dimPage meminit getpagedirectory getpagetable)

/-! ### ELF files -/

/-- The fields of `ELF_Program_Header` that are read. -/
structure ElfProgramHeader where
  pType : Dword
  pOffset : Dword
  pVaddr : Dword
  pFilesz : Dword
  pMemsz : Dword

def ptLoad : Dword := 1

def ptInterp : Dword := 3

def etExec : BitVec 16 := 2

/-- A call of `Create_Process_From_ELF`: the configuration (`NEW_MEM_ALLOC_AND_COPY`), the
memory that it reads, its arguments, and `LD_Elf_Ptr`. -/
structure Request where
  new : Bool
  memory : Dword → Byte
  buffer : Dword
  supervisor : Bool
  ldElfPtr : Option Dword

namespace Request

variable (r : Request)

def word (address : Dword) : BitVec 16 := r.memory (address + 1) ++ r.memory address

def dword (address : Dword) : Dword := r.word (address + 2) ++ r.word address

/-- `PHeader[k]` of the file at `file`. -/
def programHeader (file : Dword) (k : Nat) : ElfProgramHeader :=
  let header := file + r.dword (file + 28) + BitVec.ofNat 32 (32 * k)
  { pType := r.dword header
    pOffset := r.dword (header + 4)
    pVaddr := r.dword (header + 8)
    pFilesz := r.dword (header + 16)
    pMemsz := r.dword (header + 20) }

def programHeaders (file : Dword) : List ElfProgramHeader :=
  (List.range (r.word (file + 44)).toNat).map (r.programHeader file)

/-- The headers with `PT_LOAD`. -/
def loadable : List ElfProgramHeader :=
  (r.programHeaders r.buffer).filter fun h => h.pType = ptLoad

def dynamicLinking : Bool := (r.programHeaders r.buffer).any fun h => h.pType = ptInterp

/-- The checks of the header: the letters `ELF`, the type, the offset of the program headers,
and a dynamic loader where one is asked for. -/
def accepted : Bool :=
  r.memory (r.buffer + 1) = 0x45 ∧ r.memory (r.buffer + 2) = 0x4C ∧
    r.memory (r.buffer + 3) = 0x46 ∧ r.word (r.buffer + 16) = etExec ∧
    r.dword (r.buffer + 28) ≠ 0 ∧ (r.dynamicLinking → r.ldElfPtr.isSome)

/-- `base_address`, before it is aligned. -/
def baseAddress : Dword :=
  r.loadable.foldl (fun base h => if h.pVaddr < base then h.pVaddr else base) 0xFFFFFFFF

end Request

/-- `((hma>>12)+2)<<12`. -/
def roundHma (hma : Dword) : Dword := ((hma >>> 12) + 2) <<< 12

/-- The higher memory address with another segment. -/
def higher (base : Dword) (hma : Dword) (h : ElfProgramHeader) : Dword :=
  if hma < base + h.pVaddr + h.pMemsz then base + h.pVaddr + h.pMemsz else hma

/-! ### The load -/

namespace Request

variable (r : Request)

/-- The bytes of a segment in its file. -/
def fileByte (file : Dword) (h : ElfProgramHeader) (i : Nat) : Byte :=
  r.memory (file + h.pOffset + BitVec.ofNat 32 i)

/-- The level of the pages of the process. -/
def level : Dword := if r.supervisor then 0 else userLevel

/-- A segment is copied, and filled up. -/
def loadSegment (file base : Dword) (h : ElfProgramHeader) (l : Load) : Option Load :=
  match l.memAlloc r.new r.level (.image (r.fileByte file h)) (h.pVaddr + base) h.pFilesz with
  | none => none
  | some l =>
    if h.pFilesz < h.pMemsz then
      l.memAlloc r.new r.level (.fill 0) (base + h.pVaddr + h.pFilesz) (h.pMemsz - h.pFilesz)
    else some l

/-- A loop over program headers, with `hma`. -/
def loadSegments (file base : Dword) :
    List ElfProgramHeader → Dword → Load → Option (Dword × Load)
  | [], hma, l => some (hma, l)
  | h :: rest, hma, l =>
    match r.loadSegment file base h l with
    | none => none
    | some l => loadSegments file base rest (higher base hma h) l

/-- The program, and all headers of the dynamic loader if one is asked for. -/
def loadFiles (l : Load) : Option (Dword × Load) :=
  match r.loadSegments r.buffer 0 r.loadable 0 l with
  | none => none
  | some (hma, l) =>
    if r.dynamicLinking then
      match r.ldElfPtr with
      | none => none
      | some ld =>
        if r.baseAddress = 0xFFFFFFFF then none
        else r.loadSegments ld (roundHma hma) (r.programHeaders ld) (roundHma hma) l
    else some (roundHma hma, l)

/-- `THREAD_KERNEL_STACKS_SIZE` and `THREAD_USER_STACKS_SIZE`. -/
def threadStacksSize : Dword := 8000

/-- A stack of a thread; `Create_Thread` panics where it would be at the address 0. -/
def createStack (livello lastUsedPage : Dword) (l : Load) : Option (Dword × Load) :=
  match l.linearAlloc threadStacksSize livello (lastUsedPage + dimPage) with
  | none => none
  | some (tt, next) => if tt = 0 then none else some next

/-- The stacks of `Create_Thread`. -/
def createThread (lastUsedPage : Dword) (l : Load) : Option Load :=
  match createStack 0 lastUsedPage l with
  | none => none
  | some (lastUsedPage, l) =>
    if r.supervisor then some l else (createStack userLevel lastUsedPage l).map Prod.snd

/-- The new page directory. Before, that of `s` is the kernel's. -/
def newDirectory (s : Space) : Option Load :=
  match getpagedirectory s.mem with
  | (.page _, mem) =>
    let pagedir k := if k < sharedEntries then s.pagedir k else .clear
    some { s with mem := mem, pagedir := pagedir, shared := false }
  | _ => none

/-- `Create_Process_From_ELF`: the address space of the process that it returns. -/
def createProcessFromElf (s : Space) : Option Load :=
  if r.accepted then do
    let l ← newDirectory s
    let (hma, l) ← r.loadFiles l
    -- `msgqueue` is a page of the kernel's.
    let l ← l.getpage
    r.createThread (roundHma hma) l
  else none

end Request

/-! ### What is expected -/

/-- The byte of the process at an address, which is below 4 GB. -/
def byteAt (s : Space) (address : Nat) : Option Byte :=
  if address < 2 ^ 32 then s.load (BitVec.ofNat 32 address) else none

/-- Every segment is there, with zeros behind its bytes, and nothing that is shared with the
kernel was written. -/
structure Correct (r : Request) (l : Load) : Prop where
  segments : ∀ h ∈ r.loadable,
    (∀ i < h.pFilesz.toNat,
      byteAt l.toSpace (h.pVaddr.toNat + i) = some (r.fileByte r.buffer h i)) ∧
    ∀ i, h.pFilesz.toNat ≤ i → i < h.pMemsz.toNat →
      byteAt l.toSpace (h.pVaddr.toNat + i) = some 0
  kernel : l.shared = false

/-! ### The condition -/

namespace Request

variable (r : Request)

/-- The pieces of a segment. -/
def segmentPieces (file base : Dword) (h : ElfProgramHeader) : List (Piece 32 Byte) :=
  copied r.new (r.fileByte file h) (h.pVaddr + base) h.pFilesz ::
    if h.pFilesz < h.pMemsz then
      [copied r.new (fun _ => 0) (base + h.pVaddr + h.pFilesz) (h.pMemsz - h.pFilesz)]
    else []

/-- The last address of the program, rounded up. -/
def programEnd : Dword := roundHma (r.loadable.foldl (higher 0) 0)

/-- The pieces of the dynamic loader, and where it ends. -/
def loaderPieces : List (Piece 32 Byte) :=
  match r.ldElfPtr with
  | some ld =>
    if r.dynamicLinking then (r.programHeaders ld).flatMap (r.segmentPieces ld r.programEnd)
    else []
  | none => []

def filesEnd : Dword :=
  match r.ldElfPtr with
  | some ld =>
    if r.dynamicLinking then (r.programHeaders ld).foldl (higher r.programEnd) r.programEnd
    else r.programEnd
  | none => r.programEnd

/-- The pages of the stacks. -/
def stackPieces : List (Piece 32 Byte) :=
  let lastUsedPage := roundHma r.filesEnd + dimPage
  linearPieces 2 lastUsedPage ++
    if r.supervisor then [] else linearPieces 2 (lastUsedPage + dimPage * 2 + dimPage)

def pieces : List (Piece 32 Byte) :=
  r.loadable.flatMap (r.segmentPieces r.buffer 0) ++ r.loaderPieces ++ r.stackPieces

/-- What the pieces give an address, one over the other, and zero where there is none. -/
def written (address : Nat) : Byte := writeAll r.pieces (fun _ => 0) (BitVec.ofNat 32 address)

/-! What the allocator is asked for, in this order. -/

def segmentAccesses (base : Dword) (h : ElfProgramHeader) : List Access :=
  copyAccesses r.new (h.pVaddr + base) h.pFilesz ++
    if h.pFilesz < h.pMemsz then
      copyAccesses r.new (base + h.pVaddr + h.pFilesz) (h.pMemsz - h.pFilesz)
    else []

def loaderAccesses : List Access :=
  match r.ldElfPtr with
  | some ld =>
    if r.dynamicLinking then (r.programHeaders ld).flatMap (r.segmentAccesses r.programEnd)
    else []
  | none => []

def stackAccesses : List Access :=
  let lastUsedPage := roundHma r.filesEnd + dimPage
  linearAccesses 2 lastUsedPage ++
    if r.supervisor then [] else linearAccesses 2 (lastUsedPage + dimPage * 2 + dimPage)

def accesses : List Access :=
  r.loadable.flatMap (r.segmentAccesses 0) ++ r.loaderAccesses ++ [.page] ++ r.stackAccesses

/-- No page table that the load needs is refused. -/
def Supplied (s : Space) : Prop :=
  serve (demand ⟨∅, ∅⟩ r.accesses) (getpagedirectory s.mem).2 ≠ .refused

/-- No piece goes below 128 MB, no segment goes beyond 4 GB, and where pieces overlap a
segment, they agree with it. -/
structure Safe : Prop where
  high : ∀ p ∈ r.pieces, ¬ Low p
  agree : ∀ h ∈ r.loadable,
    (∀ i < h.pFilesz.toNat, h.pVaddr.toNat + i < 2 ^ 32 ∧
      r.written (h.pVaddr.toNat + i) = r.fileByte r.buffer h i) ∧
    ∀ i, h.pFilesz.toNat ≤ i → i < h.pMemsz.toNat → h.pVaddr.toNat + i < 2 ^ 32 ∧
      r.written (h.pVaddr.toNat + i) = 0

end Request

/-! ### Segments -/

variable {r : Request} {s : Space} {l l' t : Load} {file base hma : Dword} {h : ElfProgramHeader}
  {hs : List ElfProgramHeader}

theorem loadSegment_turn (hload : r.loadSegment file base h l = some l') :
    Turn l (r.segmentAccesses base h) (r.segmentPieces file base h) l' := by
  unfold Request.loadSegment at hload
  unfold Request.segmentAccesses Request.segmentPieces
  split at hload
  · cases hload
  · rename_i l₁ hcopy
    have hcopied := memAlloc_turn (v := r.fileByte file h) (fun _ _ => rfl) hcopy
    split at hload
    · rename_i hlt
      have hfilled := memAlloc_turn (v := fun _ => 0) (fun _ _ => rfl) hload
      rw [if_pos hlt, if_pos hlt]
      exact hcopied.trans hfilled
    · rename_i hle
      obtain rfl := Option.some.inj hload
      rw [if_neg hle, if_neg hle, List.append_nil]
      exact hcopied

theorem loadSegments_turn {hma' : Dword}
    (hload : r.loadSegments file base hs hma l = some (hma', l')) :
    Turn l (hs.flatMap (r.segmentAccesses base)) (hs.flatMap (r.segmentPieces file base)) l' ∧
      hma' = hs.foldl (higher base) hma := by
  induction hs generalizing hma l with
  | nil =>
    obtain ⟨rfl, rfl⟩ := Prod.mk.inj (Option.some.inj hload)
    exact ⟨Turn.refl l, rfl⟩
  | cons h hs ih =>
    rw [Request.loadSegments] at hload
    split at hload
    · cases hload
    · rename_i l₁ hfirst
      obtain ⟨hrest, hend⟩ := ih hload
      rw [List.flatMap_cons, List.flatMap_cons]
      exact ⟨(loadSegment_turn hfirst).trans hrest, hend⟩

/-! ### The whole load -/

theorem loadFiles_turn (hload : r.loadFiles l = some (hma, l')) :
    Turn l (r.loadable.flatMap (r.segmentAccesses 0) ++ r.loaderAccesses)
      (r.loadable.flatMap (r.segmentPieces r.buffer 0) ++ r.loaderPieces) l' ∧
      hma = r.filesEnd := by
  unfold Request.loadFiles at hload
  unfold Request.loaderPieces Request.loaderAccesses Request.filesEnd Request.programEnd
  split at hload
  · cases hload
  · rename_i first l₁ hprogram
    obtain ⟨hturn, hend⟩ := loadSegments_turn hprogram
    subst hend
    split at hload
    · rename_i hdynamic
      split at hload
      · cases hload
      · rename_i ld hld
        split at hload
        · cases hload
        · obtain ⟨hmore, hlast⟩ := loadSegments_turn hload
          rw [hld]
          dsimp only
          rw [if_pos hdynamic, if_pos hdynamic, if_pos hdynamic]
          exact ⟨hturn.trans hmore, hlast⟩
    · rename_i hstatic
      obtain ⟨rfl, rfl⟩ := Prod.mk.inj (Option.some.inj hload)
      cases r.ldElfPtr with
      | none =>
        rw [List.append_nil, List.append_nil]
        exact ⟨hturn, rfl⟩
      | some ld =>
        dsimp only
        rw [if_neg hstatic, if_neg hstatic, if_neg hstatic, List.append_nil, List.append_nil]
        exact ⟨hturn, rfl⟩

theorem createStack_turn {livello last next : Dword} (ha : offset last = 0)
    (h : Request.createStack livello last l = some (next, l')) :
    Turn l (linearAccesses 2 (last + dimPage)) (linearPieces 2 (last + dimPage)) l' ∧
      next = last + dimPage + dimPage * 2 := by
  have htwo : (pagesNeeded Request.threadStacksSize).toNat = 2 := by decide
  unfold Request.createStack at h
  split at h
  · cases h
  · rename_i tt r halloc
    split at h
    · cases h
    · obtain rfl := Option.some.inj h
      unfold Load.linearAlloc at halloc
      rw [htwo] at halloc
      split at halloc
      · cases halloc
      · obtain ⟨r, hpages, heq⟩ := Option.map_eq_some_iff.mp halloc
        obtain ⟨-, rfl⟩ := Prod.mk.inj heq
        exact linearPages_turn (offset_next ha) hpages

theorem offset_roundHma (hma : Dword) : offset (roundHma hma) = 0 := by
  unfold offset roundHma
  rw [BitVec.toNat_shiftLeft, Nat.shiftLeft_eq]
  omega

theorem createThread_turn (h : r.createThread (roundHma r.filesEnd) l = some l') :
    Turn l r.stackAccesses r.stackPieces l' := by
  have haligned := offset_roundHma r.filesEnd
  unfold Request.createThread at h
  unfold Request.stackAccesses Request.stackPieces
  dsimp only
  split at h
  · cases h
  · rename_i next l₁ hkernel
    obtain ⟨hturn, rfl⟩ := createStack_turn haligned hkernel
    split at h
    · rename_i hsupervisor
      obtain rfl := Option.some.inj h
      rw [if_pos hsupervisor, if_pos hsupervisor, List.append_nil, List.append_nil]
      exact hturn
    · rename_i huser
      obtain ⟨⟨last, l₂⟩, hstack, rfl⟩ := Option.map_eq_some_iff.mp h
      have hthird := offset_next (offset_next (offset_next haligned))
      rw [BitVec.add_assoc _ dimPage dimPage] at hthird
      obtain ⟨hmore, -⟩ := createStack_turn hthird hstack
      rw [if_neg huser, if_neg huser]
      exact hturn.trans hmore

/-- A load asks the allocator for its pages, and writes its pieces to a new address space. -/
theorem createProcess_turn (h : r.createProcessFromElf s = some t) :
    ∃ l, Request.newDirectory s = some l ∧ Turn l r.accesses r.pieces t := by
  unfold Request.createProcessFromElf at h
  split at h
  · obtain ⟨l, hnew, h⟩ := Option.bind_eq_some_iff.mp h
    obtain ⟨⟨hma, l₁⟩, hfiles, h⟩ := Option.bind_eq_some_iff.mp h
    obtain ⟨l₂, hqueue, hthread⟩ := Option.bind_eq_some_iff.mp h
    obtain ⟨hloaded, rfl⟩ := loadFiles_turn hfiles
    have hall := (hloaded.trans (page_turn hqueue)).trans (createThread_turn hthread)
    rw [List.append_nil] at hall
    exact ⟨l, hnew, hall⟩
  · cases h

/-- In a new directory, only the copied entries are present. -/
theorem newDirectory_some (h : Request.newDirectory s = some l) :
    l.mem = (getpagedirectory s.mem).2 ∧ l.shared = false ∧
      (PageZeroClear s → PageZeroClear l.toSpace) ∧ ∀ d, (above l.toSpace).pagedir d = .clear := by
  unfold Request.newDirectory at h
  split at h
  · rename_i hcall
    obtain rfl := Option.some.inj h
    rw [hcall]
    refine ⟨rfl, rfl, fun hzero => ⟨hzero.pagine, hzero.clear⟩, fun d => ?_⟩
    unfold above
    dsimp only
    split <;> rfl
  · cases h

/-- An address space where nothing is present. -/
theorem own_empty {u : Space} (h : ∀ d, u.pagedir d = .clear) : Own u ∧ Known u ⟨∅, ∅⟩ := by
  have habsent : ∀ d, ¬(u.pagedir d).present := fun d => by
    rw [h d]
    exact Bool.false_ne_true
  have hnone : ∀ x, u.mapping x = none := fun x => mapping_of_not_present (habsent _)
  constructor
  · refine ⟨⟨fun d hd => absurd hd (habsent d), fun d _ hd => absurd hd (habsent d)⟩,
      fun d hd => absurd hd (habsent d), fun x e he => ?_, fun x _ e _ he => ?_⟩
    · rw [hnone] at he
      cases he
    · rw [hnone] at he
      cases he
  · refine ⟨fun x _ => iff_of_false (habsent _) (Finset.notMem_empty _), fun x _ => ?_⟩
    exact iff_of_false (not_not.mpr (hnone x)) (Finset.notMem_empty _)

/-- An address whose checks were made has a page. -/
theorem vpn_mem_after {x : Dword} {xs : List Access} (k : Seen) (h : .check x ∈ xs) :
    vpn x ∈ (k.after xs).pages := by
  have hkeeps : ∀ (ys : List Access) (k : Seen), vpn x ∈ k.pages → vpn x ∈ (k.after ys).pages := by
    intro ys
    induction ys with
    | nil => exact fun _ hk => hk
    | cons y ys ih =>
      intro k hk
      apply ih
      cases y with
      | check a => exact Finset.mem_insert_of_mem hk
      | stack a => exact Finset.mem_insert_of_mem hk
      | page => exact hk
  obtain ⟨ys, zs, rfl⟩ := List.append_of_mem h
  rw [Seen.after_append]
  exact hkeeps zs _ (Finset.mem_insert_self ..)

/-- A load that got its page tables, and did not write below 128 MB. -/
theorem createProcess_served (h : r.createProcessFromElf s = some t)
    (hzero : r.Supplied s ∨ PageZeroClear s) :
    (t.shared = false ↔ (∀ p ∈ r.pieces, ¬Low p) ∧ r.Supplied s) ∧
      (t.shared = false → ∀ x, High x → .check x ∈ r.accesses →
        t.load x = some (writeAll r.pieces (fun _ => 0) x)) := by
  obtain ⟨l, hnew, hturn⟩ := createProcess_turn h
  obtain ⟨hmem, hfresh, hclear, hempty⟩ := newDirectory_some hnew
  obtain ⟨hown, hknown⟩ := own_empty hempty
  have hserve : ∀ outcome, serve (demand ⟨∅, ∅⟩ r.accesses ++ []) l.mem = outcome →
      serve (demand ⟨∅, ∅⟩ r.accesses) (getpagedirectory s.mem).2 = outcome := by
    intro outcome hall
    rw [← hmem, ← hall, List.append_nil]
  have hlow : t.shared = false → ∀ p ∈ r.pieces, ¬Low p := by
    intro hshared p hp hl
    rw [hturn.low ⟨p, hp, hl⟩] at hshared
    cases hshared
  have hdoes : t.shared = false → Does l ⟨∅, ∅⟩ r.accesses r.pieces t := by
    intro hshared
    rcases hturn.does (hlow hshared) _ hown hknown with hdoes | hrefused
    · exact hdoes
    · exfalso
      rcases hzero with hsupplied | hclean
      · exact hsupplied (hserve _ (hrefused.refused []))
      · rw [hrefused.recorded (hclear hclean)] at hshared
        cases hshared
  constructor
  · constructor
    · intro hshared
      refine ⟨hlow hshared, ?_⟩
      unfold Request.Supplied
      rw [hserve _ ((hdoes hshared).served [])]
      exact Served.noConfusion
    · rintro ⟨hhigh, hsupplied⟩
      rcases hturn.does hhigh _ hown hknown with hdone | hrefused
      · exact hdone.shared.trans hfresh
      · exact absurd (hserve _ (hrefused.refused [])) hsupplied
  · intro hshared x hx hcheck
    have hdone := hdoes hshared
    have hmapped := (hdone.known.pages x hx).mpr (vpn_mem_after _ hcheck)
    obtain ⟨e, he⟩ := Option.ne_none_iff_exists'.mp hmapped
    have hvalue : value (above t.toSpace) x = writeAll r.pieces (fun _ => 0) x := by
      rw [hdone.value x hx]
      apply writeAll_apply_congr
      apply value_of_none
      apply mapping_of_not_present
      rw [hempty]
      exact Bool.false_ne_true
    rw [← above_load hx, ← hvalue, value_of_mapping he, Space.load, he]
    rfl

/-! ### The memory of the process -/

theorem mem_pieces (hh : h ∈ r.loadable) {p : Piece 32 Byte}
    (hp : p ∈ r.segmentPieces r.buffer 0 h) : p ∈ r.pieces := by
  unfold Request.pieces
  rw [List.append_assoc]
  apply List.mem_append_left
  exact List.mem_flatMap.mpr ⟨h, hh, hp⟩

theorem copy_mem (hh : h ∈ r.loadable) :
    copied r.new (r.fileByte r.buffer h) h.pVaddr h.pFilesz ∈ r.pieces := by
  have hpiece := mem_pieces hh (List.mem_cons_self ..)
  rw [add_zero] at hpiece
  exact hpiece

theorem fill_mem (hh : h ∈ r.loadable) (hlt : h.pFilesz < h.pMemsz) :
    copied r.new (fun _ => 0) (h.pVaddr + h.pFilesz) (h.pMemsz - h.pFilesz) ∈ r.pieces := by
  have hpiece : copied r.new (fun _ => 0) (0 + h.pVaddr + h.pFilesz) (h.pMemsz - h.pFilesz) ∈
      r.pieces := by
    apply mem_pieces hh
    unfold Request.segmentPieces
    rw [if_pos hlt]
    exact List.mem_cons_of_mem _ (List.mem_cons_self ..)
  rw [zero_add] at hpiece
  exact hpiece

theorem ofNat_toNat_add (a : Dword) (i : Nat) :
    BitVec.ofNat 32 (a.toNat + i) = a + BitVec.ofNat 32 i := by
  rw [BitVec.ofNat_add, BitVec.ofNat_toNat, BitVec.setWidth_eq]

/-- An address behind the first bytes, from their end. -/
theorem add_ofNat_behind (a : Dword) {size : Dword} {i : Nat} (h : size.toNat ≤ i) :
    a + BitVec.ofNat 32 i = a + size + BitVec.ofNat 32 (i - size.toNat) := by
  rw [BitVec.add_assoc, ← ofNat_toNat_add size, Nat.add_sub_cancel' h]

/-- The part of a segment behind its bytes. -/
theorem fill_size {i : Nat} (hle : h.pFilesz.toNat ≤ i) (hi : i < h.pMemsz.toNat) :
    h.pFilesz < h.pMemsz ∧
      (h.pMemsz - h.pFilesz).toNat = h.pMemsz.toNat - h.pFilesz.toNat := by
  have hlt : h.pFilesz < h.pMemsz := by
    rw [BitVec.lt_def]
    omega
  exact ⟨hlt, BitVec.toNat_sub_of_le (BitVec.le_of_lt hlt)⟩

theorem toNat_behind {i : Nat} (hle : h.pFilesz.toNat ≤ i) (hin : h.pVaddr.toNat + i < 2 ^ 32) :
    (h.pVaddr + h.pFilesz).toNat = h.pVaddr.toNat + h.pFilesz.toNat := by
  rw [BitVec.toNat_add, Nat.mod_eq_of_lt (by omega)]

theorem check_mem {new : Bool} {dest size : Dword} {i : Nat} (hi : i < size.toNat)
    (hin : dest.toNat + i < 2 ^ 32) :
    .check (dest + BitVec.ofNat 32 i) ∈ copyAccesses new dest size := by
  have hrange : i < if new then min size.toNat (2 ^ 32 - dest.toNat) else size.toNat := by
    split <;> omega
  exact List.mem_map.mpr ⟨i, List.mem_range.mpr hrange, rfl⟩

theorem mem_accesses (hh : h ∈ r.loadable) {x : Access} (hx : x ∈ r.segmentAccesses 0 h) :
    x ∈ r.accesses := by
  unfold Request.accesses
  rw [List.append_assoc, List.append_assoc]
  apply List.mem_append_left
  exact List.mem_flatMap.mpr ⟨h, hh, hx⟩

/-- An address of a segment, when no piece is low: it is not shared, and it is checked. -/
theorem segment_address (hhigh : ∀ p ∈ r.pieces, ¬Low p) (hh : h ∈ r.loadable) {i : Nat}
    (hi : i < h.pFilesz.toNat ∨ i < h.pMemsz.toNat) (hin : h.pVaddr.toNat + i < 2 ^ 32) :
    High (BitVec.ofNat 32 (h.pVaddr.toNat + i)) ∧
      .check (BitVec.ofNat 32 (h.pVaddr.toNat + i)) ∈ r.accesses := by
  rw [ofNat_toNat_add]
  rcases Nat.lt_or_ge i h.pFilesz.toNat with hfile | hfill
  · refine ⟨high_of_copied (hhigh _ (copy_mem hh)) hfile hin, mem_accesses hh ?_⟩
    unfold Request.segmentAccesses
    rw [add_zero]
    exact List.mem_append_left _ (check_mem hfile hin)
  · obtain ⟨hlt, hsize⟩ := fill_size hfill (hi.resolve_left (Nat.not_lt.mpr hfill))
    have hbehind : i - h.pFilesz.toNat < (h.pMemsz - h.pFilesz).toNat := by omega
    have hend : (h.pVaddr + h.pFilesz).toNat + (i - h.pFilesz.toNat) < 2 ^ 32 := by
      rw [toNat_behind hfill hin]
      omega
    rw [add_ofNat_behind _ hfill]
    refine ⟨high_of_copied (hhigh _ (fill_mem hh hlt)) hbehind hend, mem_accesses hh ?_⟩
    unfold Request.segmentAccesses
    rw [if_pos hlt, zero_add]
    exact List.mem_append_right _ (check_mem hbehind hend)

/-- What the process has at an address of a segment. -/
theorem byteAt_iff {address : Nat} {b : Byte}
    (hthere : address < 2 ^ 32 → t.load (BitVec.ofNat 32 address) = some (r.written address)) :
    byteAt t.toSpace address = some b ↔ address < 2 ^ 32 ∧ r.written address = b := by
  unfold byteAt
  split
  · rename_i hin
    rw [hthere hin, Option.some_inj, and_iff_right hin]
  · rename_i hout
    exact iff_of_false (Option.some_ne_none b).symm fun hin => hout hin.1

/-! ### Images whose pieces are apart -/

/-- The pieces are above 128 MB and do not overlap, and the segments end below 4 GB. -/
structure Request.Separate (r : Request) : Prop where
  high : ∀ p ∈ r.pieces, sharedEntries ≤ pde p.start ∧ p.Bounded
  apart : r.pieces.Pairwise Piece.Apart
  below : ∀ h ∈ r.loadable, h.pVaddr.toNat + h.pFilesz.toNat < 2 ^ 32 ∧
    h.pVaddr.toNat + h.pMemsz.toNat < 2 ^ 32

/-- Below the end of the address space, everything is copied. -/
theorem copied_of_lt (new : Bool) (source : Nat → Byte) {dest size : Dword}
    (h : dest.toNat + size.toNat < 2 ^ 32) :
    copied new source dest size = ⟨dest, size.toNat, source⟩ := by
  unfold copied stored
  dsimp only
  rw [if_pos h, ite_self]

theorem Request.Separate.written {r : Request} (hr : r.Separate) {p : Piece 32 Byte}
    (hp : p ∈ r.pieces) {address i : Nat} (hi : i < p.len)
    (haddress : BitVec.ofNat 32 address = p.start + BitVec.ofNat 32 i) :
    r.written address = p.value i := by
  rw [Request.written, haddress]
  exact writeAll_of_mem (fun q hq => (hr.high q hq).2) hr.apart hp hi

/-- A piece that starts above 128 MB and does not reach 4 GB is not low. -/
theorem not_low {p : Piece 32 Byte} (h : sharedEntries ≤ pde p.start) (hp : p.Bounded) :
    ¬Low p := by
  rintro ⟨i, hi, hlow⟩
  unfold pde at h hlow
  rw [Piece.toNat_add hp hi] at hlow
  omega

theorem Request.Separate.safe {r : Request} (hr : r.Separate) : r.Safe := by
  refine ⟨fun p hp => not_low (hr.high p hp).1 (hr.high p hp).2, fun h hh => ?_⟩
  obtain ⟨hfile, hmem⟩ := hr.below h hh
  constructor
  · intro i hi
    refine ⟨by omega, ?_⟩
    have hpiece := copy_mem hh
    rw [copied_of_lt _ _ hfile] at hpiece
    exact hr.written hpiece hi (ofNat_toNat_add ..)
  · intro i hle hi
    refine ⟨by omega, ?_⟩
    obtain ⟨hlt, hsize⟩ := fill_size hle hi
    have hstart := toNat_behind hle (by omega : h.pVaddr.toNat + i < 2 ^ 32)
    have hpiece := fill_mem hh hlt
    rw [copied_of_lt _ _ (by omega)] at hpiece
    apply hr.written hpiece (i := i - h.pFilesz.toNat)
    · dsimp only
      omega
    · rw [ofNat_toNat_add]
      exact add_ofNat_behind _ hle

/-! ### Right and wrong loads -/

/-- After a load, the memory of the process is right if and only if the pieces of the image
keep away from the kernel, none covers a segment with other bytes, and no page table is refused.
Where one is, what the process gets depends on the entries of page 0. -/
theorem load_correct_iff (h : r.createProcessFromElf s = some t)
    (hzero : r.Supplied s ∨ PageZeroClear s) : Correct r t ↔ r.Safe ∧ r.Supplied s := by
  obtain ⟨hshared, hload⟩ := createProcess_served h hzero
  have hbyte : t.shared = false → ∀ k ∈ r.loadable, ∀ i b,
      i < k.pFilesz.toNat ∨ i < k.pMemsz.toNat →
      (byteAt t.toSpace (k.pVaddr.toNat + i) = some b ↔
        k.pVaddr.toNat + i < 2 ^ 32 ∧ r.written (k.pVaddr.toNat + i) = b) := by
    intro hfalse k hk i b hi
    apply byteAt_iff
    intro hin
    obtain ⟨hx, hcheck⟩ := segment_address (hshared.mp hfalse).1 hk hi hin
    exact hload hfalse _ hx hcheck
  constructor
  · intro hcorrect
    obtain ⟨hhigh, hsupplied⟩ := hshared.mp hcorrect.kernel
    refine ⟨⟨hhigh, fun k hk => ⟨?_, ?_⟩⟩, hsupplied⟩
    · intro i hi
      exact (hbyte hcorrect.kernel k hk i _ (Or.inl hi)).mp ((hcorrect.segments k hk).1 i hi)
    · intro i hle hi
      exact (hbyte hcorrect.kernel k hk i _ (Or.inr hi)).mp ((hcorrect.segments k hk).2 i hle hi)
  · rintro ⟨hsafe, hsupplied⟩
    have hfalse := hshared.mpr ⟨hsafe.high, hsupplied⟩
    refine ⟨fun k hk => ⟨?_, ?_⟩, hfalse⟩
    · intro i hi
      exact (hbyte hfalse k hk i _ (Or.inl hi)).mpr ((hsafe.agree k hk).1 i hi)
    · intro i hle hi
      exact (hbyte hfalse k hk i _ (Or.inr hi)).mpr ((hsafe.agree k hk).2 i hle hi)

/-- A program with one segment at this address: a byte, and one behind it that is zero. -/
def smallImage (vaddr : List Byte) : List Byte :=
  [0x7F, 0x45, 0x4C, 0x46] ++ List.replicate 12 0 ++ [2, 0] ++ List.replicate 10 0 ++
    [52, 0, 0, 0] ++ List.replicate 12 0 ++ [1, 0] ++ List.replicate 6 0 ++
    [1, 0, 0, 0] ++ [84, 0, 0, 0] ++ vaddr ++ [0, 0, 0, 0] ++ [1, 0, 0, 0] ++ [2, 0, 0, 0] ++
    List.replicate 8 0 ++ [0x90]

def small (vaddr : List Byte) : Request where
  new := true
  memory address := (smallImage vaddr).getD (address - 0x200000).toNat 0
  buffer := 0x200000
  supervisor := false
  ldElfPtr := none

/-- The kernel with a memory of 4 MB: one page table, with an entry for each page. -/
def kernelSpace : Space where
  mem := (getpagetable (meminit 0x400000 fun _ => .datapage)).2
  pagine := 257
  pagedir k := if k = 0 then ⟨257 + 766, true, true, false⟩ else .clear
  tables p j := if p = 257 + 766 then ⟨j, true, true, false⟩ else .clear
  data _ _ := 0

/-- A program at `0x8048000` is loaded. -/
theorem small_loaded :
    ∃ t, (small [0, 0x80, 4, 8]).createProcessFromElf kernelSpace = some t ∧
      Correct (small [0, 0x80, 4, 8]) t := by
  have hsome : ((small [0, 0x80, 4, 8]).createProcessFromElf kernelSpace).isSome := by
    decide +kernel
  obtain ⟨t, ht⟩ := Option.isSome_iff_exists.mp hsome
  have hseparate : (small [0, 0x80, 4, 8]).Separate :=
    ⟨by decide +kernel, by decide +kernel, by decide +kernel⟩
  have hsupplied : (small [0, 0x80, 4, 8]).Supplied kernelSpace := by
    unfold Request.Supplied
    decide +kernel
  exact ⟨t, ht, (load_correct_iff ht (Or.inl hsupplied)).mpr ⟨hseparate.safe, hsupplied⟩⟩

/-- Where the page that `getpagetable` looks at is taken, page 0 is the page table. -/
example :
    ((small [0, 0x80, 4, 8]).createProcessFromElf
      { kernelSpace with
        mem := { kernelSpace.mem with
          pagelist := Function.update kernelSpace.mem.pagelist 765 .datapage } }).map
      (fun t => (t.shared, t.pagedir 32)) = some (true, ⟨0, true, true, true⟩) := by
  decide +kernel

/-- A program at `0x100000` is loaded, too: over the kernel. -/
theorem kernel_overwritten :
    ∃ t, (small [0, 0, 0x10, 0]).createProcessFromElf kernelSpace = some t ∧
      ¬Correct (small [0, 0, 0x10, 0]) t := by
  have hshared : ((small [0, 0, 0x10, 0]).createProcessFromElf kernelSpace).map Load.shared =
      some true := by
    decide +kernel
  obtain ⟨t, ht, htrue⟩ := Option.map_eq_some_iff.mp hshared
  refine ⟨t, ht, fun hcorrect => ?_⟩
  exact Bool.noConfusion (hcorrect.kernel.symm.trans htrue)

end OsdevArchive.Osso.ElfLoader
