import OsdevArchive.Cheapos.Mem

/-!
`mem_resize` of cheapos (`mem.c`). Where it changes a table it puts the wrong values there:
a free region that gives bytes gets `=+` and `=-` for `+=` and `-=`, one that takes bytes is
measured after the size has been set, and the counters are set behind both `return`s.
-/

namespace OsdevArchive.Cheapos.Mem

open OsdevArchive.Lib.Cover OsdevArchive.Lib.Counting OsdevArchive.Lib.Runs

namespace Tables

variable (s : Tables)

/-- A region grows into a free one. -/
def cresci (i : Fin memUsedSize) (j : Fin memFreeSize) (newsize adiacenteSize : MemT) : Tables :=
  { s with
    used := Function.update s.used i { s.used i with size := newsize }
    free := Function.update s.free j
      { base := adiacenteSize
        size := -adiacenteSize
        flag := (s.free j).flag && -adiacenteSize != 0 } }

/-- A region shrinks, and there is a new free one. -/
def riduci (i : Fin memUsedSize) (j : Fin memFreeSize) (newsize : MemT) : Tables :=
  { s with
    used := Function.update s.used i { s.used i with size := newsize }
    free := Function.update s.free j
      { base := (s.used i).base + newsize, size := newsize - newsize, flag := true } }

/-- `mem_resize`. -/
def memResize (puntatore newsize : MemT) : Bool × Tables :=
  let newsize := padding newsize
  match cerca fun i => (s.used i).flag && (s.used i).base == puntatore with
  | none => (false, s)
  | some i =>
    if newsize = (s.used i).size then (true, s)
    else if (s.used i).size < newsize then
      let adiacenteBase := (s.used i).base + (s.used i).size
      let adiacenteSize := newsize - (s.used i).size
      match cerca fun j => (s.free j).flag && (s.free j).base == adiacenteBase &&
          decide (adiacenteSize ≤ (s.free j).size) with
      | none => (false, s)
      | some j => (true, s.cresci i j newsize adiacenteSize)
    else
      match cerca fun j => !(s.free j).flag with
      | none => (false, s)
      | some j => (true, s.riduci i j newsize)

end Tables

/-- A used region with an address and a size. -/
def HaRegione (s : Tables) (puntatore size : MemT) : Prop :=
  ∃ i, (s.used i).flag = true ∧ (s.used i).base = puntatore ∧ (s.used i).size = size

/-- What is expected of `mem_resize`. -/
def ResizeCorretta (limit : Nat) (s : Tables) (puntatore newsize : MemT) : Prop :=
  ((s.memResize puntatore newsize).1 = true →
    HaRegione (s.memResize puntatore newsize).2 puntatore (padding newsize) ∧
      Coherent limit (s.memResize puntatore newsize).2) ∧
  ((s.memResize puntatore newsize).1 = false → (s.memResize puntatore newsize).2 = s)

/-- No free region behind `e` has the bytes that it lacks. -/
def NonCresce (s : Tables) (e : Elemento) (newsize : MemT) : Prop :=
  e.size < newsize ∧ ∀ j, (s.free j).flag = true → (s.free j).base = e.base + e.size →
    (s.free j).size < newsize - e.size

/-- There is no entry for the bytes that `e` has too many. -/
def NonRiduce (s : Tables) (e : Elemento) (newsize : MemT) : Prop :=
  newsize < e.size ∧ ∀ j, (s.free j).flag = true

/-- A region has the new size already, or cannot get it. -/
def Bloccata (s : Tables) (e : Elemento) (newsize : MemT) : Prop :=
  newsize = e.size ∨ NonCresce s e newsize ∨ NonRiduce s e newsize

/-- The first used region at the address keeps its size. -/
def Immutabile (s : Tables) (puntatore newsize : MemT) : Prop :=
  ∀ i, (cerca fun i => (s.used i).flag && (s.used i).base == puntatore) = some i →
    Bloccata s (s.used i) (padding newsize)

/-! ### Calls -/

inductive Chiamata where
  | mem (c : Call)
  | resize (puntatore newsize : MemT)

def Tables.chiama (s : Tables) : Chiamata → Tables
  | .mem c => s.call c
  | .resize puntatore newsize => (s.memResize puntatore newsize).2

/-- No region changes its size. -/
def Ammessa (s : Tables) : Chiamata → Prop
  | .mem _ => True
  | .resize puntatore newsize => Immutabile s puntatore newsize

variable {s : Tables} {limit : Nat} {puntatore newsize : MemT}

/-- All that `mem_resize` can do. -/
theorem memResize_cases (s : Tables) (puntatore newsize : MemT) :
    ((cerca fun i => (s.used i).flag && (s.used i).base == puntatore) = none ∧
      s.memResize puntatore newsize = (false, s)) ∨
    ∃ i, (cerca fun i => (s.used i).flag && (s.used i).base == puntatore) = some i ∧
      ((Bloccata s (s.used i) (padding newsize) ∧
        s.memResize puntatore newsize = (decide (padding newsize = (s.used i).size), s)) ∨
      (¬ Bloccata s (s.used i) (padding newsize) ∧
        ((∃ j, s.memResize puntatore newsize =
          (true, s.cresci i j (padding newsize) (padding newsize - (s.used i).size))) ∨
        ∃ j, s.memResize puntatore newsize = (true, s.riduci i j (padding newsize))))) := by
  cases hi : cerca fun i => (s.used i).flag && (s.used i).base == puntatore with
  | none => exact .inl ⟨rfl, by simp only [Tables.memResize, hi]⟩
  | some i =>
    refine .inr ⟨i, rfl, ?_⟩
    by_cases hsame : padding newsize = (s.used i).size
    · refine .inl ⟨.inl hsame, ?_⟩
      simp only [Tables.memResize, hi, if_pos hsame, decide_eq_true hsame]
    by_cases hgrows : (s.used i).size < padding newsize
    · cases hj : cerca fun j => (s.free j).flag &&
          (s.free j).base == (s.used i).base + (s.used i).size &&
            decide (padding newsize - (s.used i).size ≤ (s.free j).size) with
      | none =>
        refine .inl ⟨.inr (.inl ⟨hgrows, fun j hflag hbase => ?_⟩), ?_⟩
        · have hnone := cerca_none hj j
          simp only [hflag, hbase, Bool.true_and, beq_self_eq_true,
            decide_eq_false_iff_not] at hnone
          exact BitVec.not_le.mp hnone
        · simp only [Tables.memResize, hi, if_neg hsame, if_pos hgrows, hj, decide_eq_false hsame]
      | some j =>
        have hfree := cerca_some hj
        rw [Bool.and_eq_true, Bool.and_eq_true, beq_iff_eq, decide_eq_true_eq] at hfree
        refine .inr ⟨?_, .inl ⟨j, ?_⟩⟩
        · rintro (heq | ⟨-, hnone⟩ | ⟨hless, -⟩)
          · exact hsame heq
          · exact absurd hfree.2 (BitVec.not_le.mpr (hnone j hfree.1.1 hfree.1.2))
          · bv_omega
        · simp only [Tables.memResize, hi, if_neg hsame, if_pos hgrows, hj]
    · cases hj : cerca fun j => !(s.free j).flag with
      | none =>
        refine .inl ⟨.inr (.inr ⟨by bv_omega, fun j => ?_⟩), ?_⟩
        · simpa using cerca_none hj j
        · simp only [Tables.memResize, hi, if_neg hsame, if_neg hgrows, hj, decide_eq_false hsame]
      | some j =>
        have hfree := cerca_some hj
        refine .inr ⟨?_, .inr ⟨j, ?_⟩⟩
        · rintro (heq | ⟨hmore, -⟩ | ⟨-, hfull⟩)
          · exact hsame heq
          · exact hgrows hmore
          · simp [hfull j] at hfree
        · simp only [Tables.memResize, hi, if_neg hsame, if_neg hgrows, hj]

/-- A region in use gets another size, and the counter of the used bytes stays as it is. -/
theorem Ordinata.not_resized (h : Ordinata limit s) {i : Fin memUsedSize}
    (hi : (s.used i).flag = true) (hne : newsize ≠ (s.used i).size) (t : Tables)
    (hused : t.used = Function.update s.used i { s.used i with size := newsize })
    (husata : t.usata = s.usata) : ¬ Coherent limit t := by
  intro hcoherent
  have hset := totale_set s.used t.used i hused
  have hbefore := h.usata
  have hafter := hcoherent.usata
  rw [extent_active hi, extent_active (by exact hi)] at hset
  simp only [size] at hset
  rw [husata] at hafter
  exact hne (BitVec.eq_of_toNat_eq (by omega))

/-- While the tables are in order, `mem_resize` does what is expected exactly when it changes
nothing. -/
theorem Ordinata.resizeCorretta_iff (h : Ordinata limit s) (puntatore newsize : MemT) :
    ResizeCorretta limit s puntatore newsize ↔ Immutabile s puntatore newsize := by
  rcases memResize_cases s puntatore newsize with ⟨hnone, hfalse⟩ | ⟨i, hfirst, hcases⟩
  · rw [ResizeCorretta, hfalse, Immutabile, hnone]
    exact iff_of_true ⟨by rintro ⟨⟩, fun _ => rfl⟩ (by rintro i ⟨⟩)
  have hfound := cerca_some hfirst
  rw [Bool.and_eq_true, beq_iff_eq] at hfound
  have honly : Immutabile s puntatore newsize ↔ Bloccata s (s.used i) (padding newsize) := by
    rw [Immutabile, hfirst]
    exact ⟨fun hall => hall i rfl, by rintro hhere _ ⟨⟩; exact hhere⟩
  rw [honly]
  rcases hcases with ⟨hnot, hdone⟩ | ⟨hfree, hdone⟩
  · refine iff_of_true ?_ hnot
    rw [ResizeCorretta, hdone]
    refine ⟨fun hsame => ?_, fun _ => rfl⟩
    simp only [decide_eq_true_eq] at hsame
    exact ⟨⟨i, hfound.1, hfound.2, hsame.symm⟩, h.coherent⟩
  · have hne : padding newsize ≠ (s.used i).size := fun hsame => hfree (.inl hsame)
    refine iff_of_false ?_ hfree
    rcases hdone with ⟨j, hdone⟩ | ⟨j, hdone⟩
    · rw [ResizeCorretta, hdone]
      exact fun hall => h.not_resized hfound.1 hne (s.cresci i j _ _) rfl rfl (hall.1 rfl).2
    · rw [ResizeCorretta, hdone]
      exact fun hall => h.not_resized hfound.1 hne (s.riduci i j _) rfl rfl (hall.1 rfl).2

/-- A call that meets `Immutabile` changes nothing. -/
theorem memResize_eq (hsame : Immutabile s puntatore newsize) :
    (s.memResize puntatore newsize).2 = s := by
  rcases memResize_cases s puntatore newsize with ⟨-, hfalse⟩ | ⟨i, hfirst, hcases⟩
  · rw [hfalse]
  rcases hcases with ⟨-, hdone⟩ | ⟨hfree, -⟩
  · rw [hdone]
  · exact absurd (hsame i hfirst) hfree

/-- In every run in which no region changes its size, the tables stay in order, and in each of
its states `mem_resize` does what is expected exactly when it changes nothing. -/
theorem resize_run {mb : Nat} (hlow : 2 ≤ mb) (hhigh : mb < 4096) {calls : List Chiamata}
    (h : Run (Guarded Ammessa (Updates Tables.chiama)) (memInit mb) calls s) :
    Coherent (mb * 2 ^ 20) s ∧
      ∀ puntatore newsize, ResizeCorretta (mb * 2 ^ 20) s puntatore newsize ↔
        Immutabile s puntatore newsize := by
  have hinv : Ordinata (mb * 2 ^ 20) s := by
    apply h.guarded_invariant _ (memInit_inv hlow hhigh).ordinata
    rintro s c _ hs hok rfl
    cases c with
    | mem c => exact hs.call (by omega) c
    | resize puntatore newsize =>
      rw [Tables.chiama, memResize_eq hok]
      exact hs
  exact ⟨hinv.coherent, hinv.resizeCorretta_iff⟩

/-- A region of 1 kB in front of free memory grows to 2 kB: the counters stay as they are. -/
theorem resize_miscounts :
    ¬ ResizeCorretta (2 * 2 ^ 20) ((memInit 2).call (.alloc 1000)) 57344 2000 := by
  have hinv : Ordinata (2 * 2 ^ 20) ((memInit 2).call (.alloc 1000)) :=
    (memInit_inv (by decide) (by decide)).ordinata.call (by decide) _
  rw [hinv.resizeCorretta_iff]
  have hgrows : ∃ i, (cerca fun i => (((memInit 2).call (.alloc 1000)).used i).flag &&
      (((memInit 2).call (.alloc 1000)).used i).base == 57344) = some i ∧
      (((memInit 2).call (.alloc 1000)).used i).size < padding 2000 ∧
      ∃ j, (((memInit 2).call (.alloc 1000)).free j).flag = true ∧
        (((memInit 2).call (.alloc 1000)).free j).base =
          (((memInit 2).call (.alloc 1000)).used i).base +
            (((memInit 2).call (.alloc 1000)).used i).size ∧
        padding 2000 - (((memInit 2).call (.alloc 1000)).used i).size ≤
          (((memInit 2).call (.alloc 1000)).free j).size := by
    decide +kernel
  obtain ⟨i, hfirst, hless, j, hj, hjbase, hjsize⟩ := hgrows
  intro hall
  rcases hall i hfirst with hsame | ⟨-, hnone⟩ | ⟨hmore, -⟩
  · bv_omega
  · exact absurd hjsize (BitVec.not_le.mpr (hnone j hj hjbase))
  · bv_omega

/-- A run in which a region is asked for the size that it has. -/
theorem resize_run_same : Coherent (2 * 2 ^ 20)
    (((memInit 2).chiama (.mem (.alloc 1000))).chiama (.resize 57344 1000)) := by
  have hsame : ∃ i, (cerca fun i => (((memInit 2).chiama (.mem (.alloc 1000))).used i).flag &&
      (((memInit 2).chiama (.mem (.alloc 1000))).used i).base == 57344) = some i ∧
      padding 1000 = (((memInit 2).chiama (.mem (.alloc 1000))).used i).size := by
    decide +kernel
  obtain ⟨i, hfirst, hsize⟩ := hsame
  have hfixed : Immutabile ((memInit 2).chiama (.mem (.alloc 1000))) 57344 1000 := by
    intro k hk
    obtain rfl := Option.some.inj (hfirst.symm.trans hk)
    exact .inl hsize
  have hrun : Run (Guarded Ammessa (Updates Tables.chiama)) (memInit 2)
      [.mem (.alloc 1000), .resize 57344 1000] _ :=
    .cons ⟨trivial, rfl⟩ (.cons ⟨hfixed, rfl⟩ (.nil _))
  exact (resize_run (by decide) (by decide) hrun).1

end OsdevArchive.Cheapos.Mem
