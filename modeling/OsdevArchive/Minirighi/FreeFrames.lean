import Mathlib.Algebra.Group.Nat.Defs
import Mathlib.Data.List.Range
import OsdevArchive.Lib.Runs
import OsdevArchive.Minirighi.Paging

/-!
The frames that `init_free_frames` puts on the stack (`arch/i386/kernel/paging.c`), against
the range that `delete_page` gives back, for the end of the DMA area that
`dma_setup_memory_end` chooses (`drivers/dma/dma.c`).
-/

namespace OsdevArchive.Minirighi.Paging

open OsdevArchive.Lib.Runs

def pageSize : Nat := 4096

/-- `dma_setup_memory_end`: what it makes `DMA_MEMORY_END`, or `none` where it halts. -/
def dmaSetupMemoryEnd (physMem : Nat) : Option Nat :=
  if 15 * 1024 * 1024 ≤ physMem ∧ physMem ≤ 23 * 1024 * 1024 then some (8 * 1024 * 1024)
  else if 7 * 1024 * 1024 ≤ physMem ∧ physMem ≤ 15 * 1024 * 1024 - 1 then some (4 * 1024 * 1024)
  else if 3 * 1024 * 1024 ≤ physMem ∧ physMem ≤ 7 * 1024 * 1024 - 1 then some (2 * 1024 * 1024)
  else if physMem ≤ 3 * 1024 * 1024 - 1 then none
  else some 0x01000000

/-- The loop of `init_free_frames`, from `p_addr` on: the stack that it writes, if it ends
within the fuel. -/
def initFreeFrames (physMemDim : Nat) : Nat → Nat → Option (List Nat)
  | 0, _ => none
  | fuel + 1, pAddr =>
    if pAddr < physMemDim then
      let pAddr := (pAddr + pageSize) % 2 ^ 32
      (initFreeFrames physMemDim fuel pAddr).map (pAddr :: ·)
    else some []

/-- The loop ends with this stack. -/
def Initial (physMemDim dmaMemoryEnd : Nat) (stack : List Nat) : Prop :=
  ∃ fuel, initFreeFrames physMemDim fuel dmaMemoryEnd = some stack

/-- The range check of `delete_page`. -/
def managed (physMemDim dmaMemoryEnd : Nat) (pte : Nat) : Bool :=
  dmaMemoryEnd ≤ pte && pte < physMemDim

/-! ### What is expected -/

/-- The frames on the stack are those of the managed range, each once. -/
def ExactStack (physMemDim dmaMemoryEnd : Nat) (stack : List Nat) : Prop :=
  stack.Nodup ∧
    ∀ f, f ∈ stack ↔ f % pageSize = 0 ∧ managed physMemDim dmaMemoryEnd f = true

/-- The frame is on the stack exactly once, or a present entry refers to it. -/
def Conserved {A F : Type*} [DecidableEq F] (s : St A F) (f : F) : Prop :=
  s.freeFrames.count f = 1 ∧ ¬ s.Referenced f ∨ s.freeFrames.count f = 0 ∧ s.Referenced f

/-- Every run of any address spaces keeps every frame of the stack. -/
def Keeps (physMemDim dmaMemoryEnd : Nat) (stack : List Nat) : Prop :=
  ∀ (tables : Nat → PtIndex → Option (Entry Nat)) (ops : List (Op Nat Nat)) (s : St Nat Nat),
    Run (Computes (St.exec (managed physMemDim dmaMemoryEnd))) (St.boot stack tables) ops s →
      ∀ f ∈ stack, Conserved s f

/-! ### The first stack -/

variable {physMemDim dmaMemoryEnd fuel pAddr : Nat} {stack : List Nat}

/-- Whichever branch sets the end, it is that of a frame and leaves a megabyte. -/
theorem dmaSetupMemoryEnd_spec (h : dmaSetupMemoryEnd physMemDim = some dmaMemoryEnd) :
    dmaMemoryEnd % 4096 = 0 ∧ dmaMemoryEnd + 0x100000 ≤ physMemDim := by
  unfold dmaSetupMemoryEnd at h
  split at h
  · have hend := Option.some.inj h
    omega
  · split at h
    · have hend := Option.some.inj h
      omega
    · split at h
      · have hend := Option.some.inj h
        omega
      · split at h
        · cases h
        · have hend := Option.some.inj h
          omega

/-- The loop writes the frames behind `p_addr`, up to the first one that is not below the
end of the memory. -/
theorem initFreeFrames_eq (hsize : physMemDim ≤ 2 ^ 32 - pageSize)
    (h : initFreeFrames physMemDim fuel pAddr = some stack) :
    stack = List.range' (pAddr + pageSize) ((physMemDim - pAddr + (pageSize - 1)) / pageSize)
      pageSize := by
  unfold pageSize at hsize
  induction fuel generalizing pAddr stack with
  | zero => cases h
  | succ fuel ih =>
    rw [initFreeFrames] at h
    split at h
    · rename_i hlow
      obtain ⟨rest, hrest, rfl⟩ := Option.map_eq_some_iff.mp h
      have hnext : (pAddr + pageSize) % 2 ^ 32 = pAddr + pageSize := by
        unfold pageSize
        omega
      rw [hnext] at hrest ⊢
      have hcount : (physMemDim - pAddr + (pageSize - 1)) / pageSize =
          (physMemDim - (pAddr + pageSize) + (pageSize - 1)) / pageSize + 1 := by
        unfold pageSize
        omega
      rw [ih hrest, hcount, List.range'_succ]
    · rename_i hhigh
      obtain rfl := Option.some.inj h
      have hcount : (physMemDim - pAddr + (pageSize - 1)) / pageSize = 0 := by
        unfold pageSize
        omega
      rw [hcount, List.range'_zero]

/-- It ends if the last page of the address space is not memory. -/
theorem initFreeFrames_ends (pAddr : Nat) (hsize : physMemDim ≤ 2 ^ 32 - pageSize) :
    ∃ fuel stack, initFreeFrames physMemDim fuel pAddr = some stack := by
  unfold pageSize at hsize
  obtain ⟨n, hn⟩ : ∃ n, physMemDim ≤ pAddr + n * pageSize :=
    ⟨physMemDim, by unfold pageSize; omega⟩
  refine ⟨n + 1, ?_⟩
  induction n generalizing pAddr with
  | zero =>
    refine ⟨[], ?_⟩
    rw [initFreeFrames, if_neg (by omega)]
  | succ n ih =>
    rw [initFreeFrames]
    split
    · rename_i hlow
      have hnext : (pAddr + pageSize) % 2 ^ 32 = pAddr + pageSize := by
        unfold pageSize
        omega
      have hcount : (n + 1) * pageSize = n * pageSize + pageSize := Nat.succ_mul n pageSize
      have hnear : physMemDim ≤ pAddr + pageSize + n * pageSize := by omega
      obtain ⟨stack, hstack⟩ := ih (pAddr + pageSize) hnear
      dsimp only
      rw [hnext, hstack]
      exact ⟨_, rfl⟩
    · exact ⟨[], rfl⟩

/-- Otherwise `p_addr` comes back to zero, and the loop goes on. -/
theorem initFreeFrames_never (hsize : 2 ^ 32 - pageSize < physMemDim)
    (halign : pAddr % pageSize = 0) (hlow : pAddr < 2 ^ 32) :
    initFreeFrames physMemDim fuel pAddr = none := by
  unfold pageSize at hsize halign
  induction fuel generalizing pAddr with
  | zero => rfl
  | succ fuel ih =>
    have hnext : (pAddr + pageSize) % 2 ^ 32 % 4096 = 0 := by
      unfold pageSize
      omega
    have hagain := ih hnext (Nat.mod_lt _ (by decide))
    rw [initFreeFrames, if_pos (by omega)]
    dsimp only
    rw [hagain]
    rfl

/-- The first frame of the managed range is never on the stack. -/
theorem first_not_mem (hsize : physMemDim ≤ 2 ^ 32 - pageSize)
    (h : Initial physMemDim dmaMemoryEnd stack) : dmaMemoryEnd ∉ stack := by
  obtain ⟨fuel, hfuel⟩ := h
  rw [initFreeFrames_eq hsize hfuel, List.mem_range']
  rintro ⟨i, -, heq⟩
  unfold pageSize at heq
  omega

/-- The stack in the order in which it is popped: its last frame is not below the end of the
memory. -/
theorem initial_cases (hsize : physMemDim ≤ 2 ^ 32 - pageSize)
    (hlow : dmaMemoryEnd + 0x100000 ≤ physMemDim)
    (h : Initial physMemDim dmaMemoryEnd stack) :
    stack.Nodup ∧ ∃ f₀ f t mid last, stack = f₀ :: f :: t :: (mid ++ [last]) ∧
      physMemDim ≤ last := by
  obtain ⟨fuel, hfuel⟩ := h
  obtain ⟨n, hn⟩ : ∃ n, (physMemDim - dmaMemoryEnd + (pageSize - 1)) / pageSize = n + 4 := by
    apply Nat.exists_eq_add_of_le'
    unfold pageSize
    omega
  rw [initFreeFrames_eq hsize hfuel, hn]
  constructor
  · exact List.nodup_range' _ (by decide)
  · have hsplit : List.range' (dmaMemoryEnd + pageSize) (n + 4) pageSize =
        (dmaMemoryEnd + pageSize) :: (dmaMemoryEnd + pageSize + pageSize) ::
          (dmaMemoryEnd + pageSize + pageSize + pageSize) ::
            (List.range' (dmaMemoryEnd + pageSize + pageSize + pageSize + pageSize) n pageSize ++
              [dmaMemoryEnd + pageSize + pageSize + pageSize + pageSize + pageSize * n]) := by
      rw [List.range'_succ, List.range'_succ, List.range'_succ, List.range'_concat]
    refine ⟨_, _, _, _, _, hsplit, ?_⟩
    unfold pageSize at hn ⊢
    omega

/-! ### A frame that is lost -/

section

variable {A F : Type*} [DecidableEq A] {s : St A F} {a : A} {f₀ f t g : F} {rest : List F}

/-- One page is mapped, and nothing is shared: the address space `a` has the frame `f₀`, its
page table `t` and the page `f`. -/
structure OnePage (s : St A F) (a : A) (f₀ f t : F) (rest : List F) : Prop where
  dirs : s.dirs = Function.update (fun _ => none) (a, 0) (some ⟨t, true⟩)
  table : s.tables t = Function.update (fun _ => none) 0 (some ⟨f, true⟩)
  cow : s.cow = fun _ => none
  pdbr : s.pdbr = Function.update (fun _ => none) a (some f₀)
  stack : s.freeFrames = rest
  kernel : ∀ g ∈ s.kernel, g ∉ rest

theorem OnePage.only_table (h : OnePage s a f₀ f t rest) {x : A × PdIndex} {pde : Entry F}
    (hx : s.dirs x = some pde) : pde = ⟨t, true⟩ := by
  rw [h.dirs, Function.update_apply] at hx
  split at hx
  · exact (Option.some.inj hx).symm
  · cases hx

theorem OnePage.only_page (h : OnePage s a f₀ f t rest) {k : PtIndex} {pte : Entry F}
    (hk : s.tables t k = some pte) : pte.frame = f := by
  rw [h.table, Function.update_apply] at hk
  split at hk
  · rw [← Option.some.inj hk]
  · cases hk

theorem OnePage.only_dir (h : OnePage s a f₀ f t rest) {b : A} (hb : s.pdbr b = some g) :
    g = f₀ := by
  rw [h.pdbr, Function.update_apply] at hb
  split at hb
  · exact (Option.some.inj hb).symm
  · cases hb

variable [DecidableEq F] {free : F → Bool}

/-- The first page of the first address space. -/
theorem OnePage.start (free : F → Bool) (tables : F → PtIndex → Option (Entry F)) (a : A)
    (f₀ f t : F) (rest : List F) :
    ∃ s, Run (Computes (St.exec free)) (St.boot (f₀ :: f :: t :: rest) tables)
      [.create a true, .fault a 0 0 false] s ∧ OnePage s a f₀ f t rest := by
  obtain ⟨u, hu⟩ : ∃ u : St A F, u =
      { St.boot (f₀ :: f :: t :: rest) tables with
        freeFrames := f :: t :: rest
        popped := 1
        pdbr := Function.update (fun _ => none) a (some f₀) } := ⟨_, rfl⟩
  have hcreate : St.exec free (St.boot (f₀ :: f :: t :: rest) tables) (.create a true) =
      some u := by
    rw [hu]
    simp [St.exec, St.newVspace, St.popFrame, St.clearDir, St.boot]
  have hfault : St.exec free u (.fault a 0 0 false) =
      some { u with
        freeFrames := rest
        popped := 3
        dirs := Function.update (fun _ => none) (a, 0) (some ⟨t, true⟩)
        tables := Function.update u.tables t
          (Function.update (fun _ => none) 0 (some ⟨f, true⟩)) } := by
    simp [St.exec, St.entries, St.pageFaultHandler, St.mapPage, St.popFrame, hu,
      St.boot, St.setPde, St.setPte, St.setTable]
  refine ⟨_, .cons hcreate (.single hfault), ?_⟩
  constructor
  · rfl
  · exact Function.update_self ..
  · rw [hu]
    rfl
  · rw [hu]
  · rfl
  · rw [hu]
    rintro k ⟨⟩

theorem OnePage.take (free : F → Bool) (h : OnePage s a f₀ f t (g :: rest))
    (hnodup : (g :: rest).Nodup) :
    ∃ s', St.exec free s .takeFrame = some s' ∧ OnePage s' a f₀ f t rest := by
  have hpop : s.popFrame = some (g, { s with freeFrames := rest, popped := s.popped + 1 }) := by
    rw [St.popFrame, h.stack]
  refine ⟨_, by rw [St.exec, hpop], ?_⟩
  constructor
  · exact h.dirs
  · exact h.table
  · exact h.cow
  · exact h.pdbr
  · rfl
  · intro k hk hrest
    rcases List.mem_cons.mp hk with rfl | hold
    · exact (List.nodup_cons.mp hnodup).1 hrest
    · exact h.kernel k hold (List.mem_cons_of_mem g hrest)

/-- The kernel takes frames until one is left. -/
theorem OnePage.takeAll {mid : List F} (free : F → Bool) (h : OnePage s a f₀ f t (mid ++ [g]))
    (hnodup : (mid ++ [g]).Nodup) :
    ∃ s', Run (Computes (St.exec free)) s (mid.map fun _ => .takeFrame) s' ∧
      OnePage s' a f₀ f t [g] := by
  induction mid generalizing s with
  | nil => exact ⟨s, .nil s, h⟩
  | cons k mid ih =>
    obtain ⟨u, hstep, hu⟩ := h.take free hnodup
    obtain ⟨v, hrun, hv⟩ := ih hu (List.nodup_cons.mp hnodup).2
    exact ⟨v, .cons hstep hrun, hv⟩

/-- The last frame becomes a page of the same page table, and the page is deleted. -/
theorem OnePage.lose (h : OnePage s a f₀ f t [g]) (hfree : free g = false) (hf₀ : g ≠ f₀)
    (hf : g ≠ f) (ht : g ≠ t) (mem : PtIndex → Bool) :
    ∃ s', Run (Computes (St.exec free)) s [.fault a 0 1 false, .deletePage a 0 1 mem] s' ∧
      g ∉ s'.freeFrames ∧ ¬ s'.Referenced g := by
  have hdir : s.dirs (a, 0) = some ⟨t, true⟩ := by rw [h.dirs, Function.update_self]
  have hpdbr : s.pdbr a = some f₀ := by rw [h.pdbr, Function.update_self]
  have hentry : s.tables t 1 = none := by
    rw [h.table, Function.update_of_ne (by decide)]
  obtain ⟨u, hu⟩ : ∃ u : St A F, u = { s with
      freeFrames := []
      popped := s.popped + 1
      tables := Function.update s.tables t (Function.update (s.tables t) 1 (some ⟨g, true⟩)) } :=
    ⟨_, rfl⟩
  have hfault : St.exec free s (.fault a 0 1 false) = some u := by
    simp [St.exec, St.entries, hdir, hpdbr, hentry, St.pageFaultHandler, St.mapPage, St.popFrame,
      h.stack, hu, St.setPte, St.setTable]
  have hudir : u.dirs (a, 0) = some ⟨t, true⟩ := by rw [hu, hdir]
  have hupdbr : (u.pdbr a).isSome = true := by rw [hu, hpdbr]; rfl
  have hunset : ∀ k, u.cow.unsetSharedPage k = (u.cow, 0) := by
    intro k
    rw [hu, h.cow]
    rfl
  have hsame : u.setPde a 0 (some ⟨t, true⟩) = u := by
    rw [St.setPde, ← hudir, Function.update_eq_self]
  have hrelease : u.releasePage free g = u := by
    rw [St.releasePage, hunset]
    exact if_neg (by rw [hfree]; exact Bool.false_ne_true)
  have hpte : u.tables t 1 = some ⟨g, true⟩ := by
    rw [hu]
    dsimp only
    rw [Function.update_self, Function.update_self]
  have hback : u.setPte t 1 none = { u with tables := s.tables } := by
    rw [St.setPte, St.setTable, hu]
    simp only [Function.update_self, Function.update_idem]
    rw [← hentry, Function.update_eq_self, Function.update_eq_self]
  have hmapped : ¬ ((List.finRange 1024).all fun k => (s.tables t k).isNone) = true := by
    intro hall
    have hzero := List.all_eq_true.mp hall 0 (List.mem_finRange 0)
    rw [h.table, Function.update_self] at hzero
    cases hzero
  have hdelete : St.exec free u (.deletePage a 0 1 mem) = some { u with tables := s.tables } := by
    rw [St.exec, if_pos hupdbr, St.deletePage, hudir]
    dsimp only
    rw [hunset]
    dsimp only
    rw [hsame, St.deletePte, hpte]
    dsimp only
    rw [hrelease, hback, if_neg hmapped]
  refine ⟨_, .cons hfault (.single hdelete), ?_, ?_⟩
  · rw [hu]
    exact List.not_mem_nil
  · rw [hu]
    rintro (⟨x, pde, hx, hframe⟩ | ⟨b, hb⟩ | hkernel)
    · obtain rfl : pde = ⟨t, true⟩ := h.only_table hx
      rcases hframe with heq | ⟨k, pte, hk, heq⟩
      · exact ht heq.symm
      · exact hf (heq.symm.trans (h.only_page hk))
    · exact hf₀ (h.only_dir hb)
    · exact h.kernel g hkernel (List.mem_singleton_self g)

/-- A run loses the last frame of the stack, where it is not in the range that `delete_page`
gives back. -/
theorem lost_frame {mid : List F} (a : A) (tables : F → PtIndex → Option (Entry F))
    (hnodup : (f₀ :: f :: t :: (mid ++ [g])).Nodup) (hfree : free g = false) :
    ∃ (ops : List (Op A F)) (s : St A F),
      Run (Computes (St.exec free)) (St.boot (f₀ :: f :: t :: (mid ++ [g])) tables) ops s ∧
        ¬ Conserved s g := by
  have hlast : g ∈ mid ++ [g] := List.mem_append_right mid (List.mem_singleton_self g)
  obtain ⟨hf₀, hnodup⟩ := List.nodup_cons.mp hnodup
  obtain ⟨hf, hnodup⟩ := List.nodup_cons.mp hnodup
  obtain ⟨ht, hnodup⟩ := List.nodup_cons.mp hnodup
  have hne₀ : g ≠ f₀ := by
    rintro rfl
    exact hf₀ (List.mem_cons_of_mem f (List.mem_cons_of_mem t hlast))
  have hne : g ≠ f := by
    rintro rfl
    exact hf (List.mem_cons_of_mem t hlast)
  have hnet : g ≠ t := by
    rintro rfl
    exact ht hlast
  obtain ⟨s₁, hrun₁, h₁⟩ := OnePage.start free tables a f₀ f t (mid ++ [g])
  obtain ⟨s₂, hrun₂, h₂⟩ := h₁.takeAll free hnodup
  obtain ⟨s₃, hrun₃, hgone, hunref⟩ := h₂.lose hfree hne₀ hne hnet fun _ => true
  refine ⟨_, s₃, (hrun₁.append hrun₂).append hrun₃, ?_⟩
  rintro (⟨hcount, -⟩ | ⟨-, href⟩)
  · rw [List.count_eq_zero_of_not_mem hgone] at hcount
    cases hcount
  · exact hunref href

end

/-- For every size of the memory, the first stack is not that of the managed frames, and a run
loses a frame of it. There is a first stack if the last page of the address space is not
memory. -/
theorem frames_not_conserved {physMemDim : BitVec 32}
    (h : dmaSetupMemoryEnd physMemDim.toNat = some dmaMemoryEnd) :
    (∀ stack, Initial physMemDim.toNat dmaMemoryEnd stack →
      ¬ ExactStack physMemDim.toNat dmaMemoryEnd stack ∧
        ¬ Keeps physMemDim.toNat dmaMemoryEnd stack) ∧
    ((∃ stack, Initial physMemDim.toNat dmaMemoryEnd stack) ↔
      physMemDim.toNat ≤ 2 ^ 32 - pageSize) := by
  obtain ⟨halign, hlow⟩ := dmaSetupMemoryEnd_spec h
  have hword := physMemDim.isLt
  have hends : ∀ stack, Initial physMemDim.toNat dmaMemoryEnd stack →
      physMemDim.toNat ≤ 2 ^ 32 - pageSize := by
    rintro stack ⟨fuel, hfuel⟩
    apply Nat.le_of_not_lt
    intro hlarge
    rw [initFreeFrames_never hlarge halign (by omega)] at hfuel
    cases hfuel
  constructor
  · intro stack hinit
    have hsize := hends stack hinit
    constructor
    · intro hexact
      apply first_not_mem hsize hinit
      apply (hexact.2 dmaMemoryEnd).mpr
      refine ⟨halign, ?_⟩
      rw [managed, Bool.and_eq_true]
      exact ⟨decide_eq_true (Nat.le_refl _), decide_eq_true (by omega)⟩
    · intro hkeeps
      obtain ⟨hnodup, f₀, f, t, mid, last, rfl, hlast⟩ := initial_cases hsize hlow hinit
      have hfree : managed physMemDim.toNat dmaMemoryEnd last = false := by
        rw [managed, Bool.and_eq_false_iff]
        exact Or.inr (decide_eq_false (Nat.not_lt.mpr hlast))
      obtain ⟨ops, s, hrun, hlost⟩ := lost_frame 0 (fun _ _ => none) hnodup hfree
      apply hlost
      apply hkeeps _ ops s hrun
      simp
  · constructor
    · rintro ⟨stack, hinit⟩
      exact hends stack hinit
    · intro hsize
      obtain ⟨fuel, stack, hfuel⟩ := initFreeFrames_ends dmaMemoryEnd hsize
      exact ⟨stack, fuel, hfuel⟩

theorem frames_not_conserved_32 :
    (∀ stack, Initial (0x2000000#32).toNat 0x1000000 stack →
      ¬ ExactStack (0x2000000#32).toNat 0x1000000 stack ∧
        ¬ Keeps (0x2000000#32).toNat 0x1000000 stack) ∧
    ((∃ stack, Initial (0x2000000#32).toNat 0x1000000 stack) ↔
      (0x2000000#32).toNat ≤ 2 ^ 32 - pageSize) :=
  frames_not_conserved (by decide)

/-- With 3 MB, the frame at 2 MB is missing, and the one behind the memory is there. -/
theorem small_memory_stack :
    dmaSetupMemoryEnd 0x300000 = some 0x200000 ∧
      ∃ stack, Initial 0x300000 0x200000 stack ∧ 0x200000 ∉ stack ∧ 0x300000 ∈ stack ∧
        ¬ ExactStack 0x300000 0x200000 stack := by
  refine ⟨by decide, List.range' 0x201000 256 4096, ⟨257, by decide +kernel⟩, ?_, ?_, ?_⟩
  · decide +kernel
  · decide +kernel
  · intro hexact
    have hfirst := (hexact.2 0x200000).mpr (by decide)
    revert hfirst
    decide +kernel

end OsdevArchive.Minirighi.Paging
