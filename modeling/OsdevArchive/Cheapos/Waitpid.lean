import OsdevArchive.Cheapos.Tasks

/-!
The condition under which a task of cheapos that waits for another one goes on
(`syscall_task.c`). `wpid` goes through `Qnotask` upwards and takes its indices modulo
`MAX_TASK_NUM`, one less than the ring has cells.
-/

namespace OsdevArchive.Cheapos

open OsdevArchive.Lib.RingBuffer OsdevArchive.Lib.Runs

instance : NeZero maxTaskNum := ⟨by decide⟩

namespace Pidcoda

variable (c : Pidcoda) (pid : Int)

/-- The loop of `wpid` from an index on; `none` is a loop that has not ended. -/
def wpidLoop : Nat → Fin maxTaskNum → Option Bool
  | 0, _ => none
  | n + 1, i =>
    if i = Fin.ofNat maxTaskNum (c.fine.val + 1) then some false
    else if c.dato i.castSucc = pid then some true
    else wpidLoop n (Fin.ofNat maxTaskNum (i.val + 1))

def wpid : Option Bool := c.wpidLoop pid maxTaskNum (Fin.ofNat maxTaskNum (c.inizio.val + 1))

/-- The loop has ended, with `TRUE` for the pids of the queue. -/
def WpidCorretta : Prop := ∃ b, c.wpid pid = some b ∧ (b = true ↔ pid ∈ c.pids)

/-- The cells that hold the queue. -/
def Occupata (i : Fin (maxTaskNum + 1)) : Prop :=
  if c.inizio ≤ c.fine then c.inizio < i ∧ i ≤ c.fine else c.inizio < i ∨ i ≤ c.fine

/-- A cell of the queue that `wpid` passes over where the queue reaches the last one. -/
def saltata : Fin (maxTaskNum + 1) :=
  if c.inizio = Fin.last maxTaskNum then 0 else Fin.last maxTaskNum

/-- The last cell is not in use; or the queue is full and the pid is not there; or the pid is
in a cell that is not passed over, or is neither in the one that is nor, where the queue ends
there, in the first one, which is looked at in its place. -/
def Cercabile : Prop :=
  c.inizio = c.fine ∨ (c.inizio < c.fine ∧ c.fine < Fin.last maxTaskNum) ∨
    if c.inizio = 0 ∧ c.fine = Fin.last maxTaskNum then pid ∉ c.pids
    else (∃ i, c.Occupata i ∧ i ≠ c.saltata ∧ c.dato i = pid) ∨
      (c.dato c.saltata = pid ↔ c.fine = Fin.last maxTaskNum ∧ c.dato 0 = pid)

/-- The ring that `wpid` goes through. -/
def anello : RingQueue maxTaskNum Int where
  cells i := c.dato i.castSucc
  head := Fin.ofNat maxTaskNum (c.inizio.val + 1)
  tail := Fin.ofNat maxTaskNum (c.fine.val + 1)

/-- The cells at which `wpid` looks. -/
def Guardata (i : Fin (maxTaskNum + 1)) : Prop :=
  ∃ k : Fin maxTaskNum, k.castSucc = i ∧ c.anello.InUse k

variable {c pid}

theorem wpidLoop_eq (n : Nat) (i : Fin maxTaskNum) :
    c.wpidLoop pid n i =
      RingQueue.search (fun q => decide (q = pid)) n { c.anello with head := i } := by
  induction n generalizing i with
  | zero => rfl
  | succ n ih =>
    rw [wpidLoop, RingQueue.search, ih]
    simp only [decide_eq_true_eq]
    rfl

theorem mem_pids : pid ∈ c.pids ↔ ∃ i, c.Occupata i ∧ c.dato i = pid := by
  have hring : c.pids = (RingQueue.upsideDown c.dato c.fine c.inizio).contents := rfl
  rw [hring, RingQueue.mem_contents]
  constructor
  · rintro ⟨i, huse, hdato⟩
    refine ⟨i.rev, ?_, hdato⟩
    rw [Occupata, ← RingQueue.upsideDown_inUse c.dato, Fin.rev_rev]
    exact huse
  · rintro ⟨i, huse, hdato⟩
    refine ⟨i.rev, (RingQueue.upsideDown_inUse c.dato _ _ i).mpr huse, ?_⟩
    simpa only [RingQueue.upsideDown, Fin.rev_rev] using hdato

/-- `wpid` ends, and finds what is in the cells at which it looks. -/
theorem wpid_eq (c : Pidcoda) (pid : Int) :
    ∃ b, c.wpid pid = some b ∧ (b = true ↔ ∃ i, c.Guardata i ∧ c.dato i = pid) := by
  have hlength : c.anello.contents.length < maxTaskNum := c.anello.contains_contents.room
  refine ⟨_, (wpidLoop_eq _ _).trans (RingQueue.search_spec _ _ hlength), ?_⟩
  simp only [List.any_eq_true, decide_eq_true_eq, exists_eq_right]
  rw [RingQueue.mem_contents]
  constructor
  · rintro ⟨k, huse, hdato⟩
    exact ⟨k.castSucc, ⟨k, rfl, huse⟩, hdato⟩
  · rintro ⟨_, ⟨k, rfl, huse⟩, hdato⟩
    exact ⟨k, huse, hdato⟩

theorem wpidCorretta_iff : c.WpidCorretta pid ↔
    ((∃ i, c.Guardata i ∧ c.dato i = pid) ↔ ∃ i, c.Occupata i ∧ c.dato i = pid) := by
  obtain ⟨b, hb, htrue⟩ := wpid_eq c pid
  rw [WpidCorretta, ← mem_pids, ← htrue]
  constructor
  · rintro ⟨b', hb', hspec⟩
    obtain rfl := Option.some.inj (hb.symm.trans hb')
    exact hspec
  · intro hspec
    exact ⟨b, hb, hspec⟩

/-- An index is taken modulo one less than there are. -/
theorem mod_indice (i : Fin (maxTaskNum + 1)) : (i.val + 1) % maxTaskNum =
    if i.val + 1 < maxTaskNum then i.val + 1 else i.val + 1 - maxTaskNum := by
  have hi := i.isLt
  have hmax : maxTaskNum = 128 := rfl
  split
  · rename_i hlt
    exact Nat.mod_eq_of_lt hlt
  · rw [Nat.mod_eq_sub_mod (by omega), Nat.mod_eq_of_lt (by omega)]

theorem guardata_iff (i : Fin (maxTaskNum + 1)) : c.Guardata i ↔
    i.val < maxTaskNum ∧
      if (c.inizio.val + 1) % maxTaskNum ≤ (c.fine.val + 1) % maxTaskNum then
        (c.inizio.val + 1) % maxTaskNum ≤ i.val ∧ i.val < (c.fine.val + 1) % maxTaskNum
      else (c.inizio.val + 1) % maxTaskNum ≤ i.val ∨ i.val < (c.fine.val + 1) % maxTaskNum := by
  constructor
  · rintro ⟨k, rfl, huse⟩
    exact ⟨k.isLt, huse⟩
  · rintro ⟨hlt, huse⟩
    exact ⟨⟨i.val, hlt⟩, rfl, huse⟩

theorem not_guardata (h : (c.inizio.val + 1) % maxTaskNum = (c.fine.val + 1) % maxTaskNum)
    (i : Fin (maxTaskNum + 1)) : ¬ c.Guardata i := by
  rw [guardata_iff, h, if_pos (Nat.le_refl _)]
  omega

theorem not_occupata (h : c.inizio = c.fine) (i : Fin (maxTaskNum + 1)) : ¬ c.Occupata i := by
  rw [Occupata, h, if_pos (Fin.le_refl _)]
  simp only [Fin.lt_def, Fin.le_def]
  omega

/-- A queue that ends before the last cell is looked at as it is. -/
theorem guardata_iff_occupata (hlt : c.inizio < c.fine) (hlast : c.fine < Fin.last maxTaskNum)
    (i : Fin (maxTaskNum + 1)) : c.Guardata i ↔ c.Occupata i := by
  rw [guardata_iff, Occupata, mod_indice, mod_indice]
  simp only [Fin.lt_def, Fin.le_def, Fin.val_last] at hlt hlast ⊢
  grind

theorem val_saltata (c : Pidcoda) :
    c.saltata.val = if c.inizio.val = maxTaskNum then 0 else maxTaskNum := by
  simp only [saltata, Fin.ext_iff, Fin.val_last]
  split <;> rfl

/-- In any other queue that is not full from the first cell on, the cell that is passed over
is in use, and where the queue ends in the last cell the first one is looked at. -/
theorem guardata_saltata (hne : c.inizio ≠ c.fine)
    (hlast : ¬ (c.inizio < c.fine ∧ c.fine < Fin.last maxTaskNum))
    (hfull : ¬ (c.inizio = 0 ∧ c.fine = Fin.last maxTaskNum)) (i : Fin (maxTaskNum + 1)) :
    c.Guardata i ↔ (c.Occupata i ∧ i ≠ c.saltata) ∨ (c.fine = Fin.last maxTaskNum ∧ i = 0) := by
  have hi := i.isLt
  have hinizio := c.inizio.isLt
  have hfine := c.fine.isLt
  have hmax : maxTaskNum = 128 := rfl
  rw [guardata_iff, Occupata, mod_indice, mod_indice]
  simp only [Fin.lt_def, Fin.le_def, Fin.ext_iff, ne_eq, Fin.val_last, Fin.val_zero,
    val_saltata] at hne hlast hfull ⊢
  grind

theorem occupata_saltata (hne : c.inizio ≠ c.fine)
    (hlast : ¬ (c.inizio < c.fine ∧ c.fine < Fin.last maxTaskNum)) : c.Occupata c.saltata := by
  have hinizio := c.inizio.isLt
  have hfine := c.fine.isLt
  rw [Occupata]
  simp only [Fin.lt_def, Fin.le_def, ne_eq, Fin.ext_iff, Fin.val_last, val_saltata] at hne hlast ⊢
  grind

/-- For which pids `wpid` answers right. -/
theorem wpidCorretta_iff_cercabile (c : Pidcoda) (pid : Int) :
    c.WpidCorretta pid ↔ c.Cercabile pid := by
  rw [wpidCorretta_iff, Cercabile]
  by_cases hempty : c.inizio = c.fine
  · have hnone : ∀ i, ¬ c.Guardata i := not_guardata (by rw [hempty])
    simp only [hempty, hnone, not_occupata hempty, false_and, exists_false, true_or]
  by_cases hlow : c.inizio < c.fine ∧ c.fine < Fin.last maxTaskNum
  · simp only [guardata_iff_occupata hlow.1 hlow.2, hlow, and_self, true_or, or_true]
  rw [or_iff_right hempty, or_iff_right hlow]
  split
  · rename_i hfull
    have hnone : ∀ i, ¬ c.Guardata i := by
      apply not_guardata
      rw [hfull.1, hfull.2]
      rfl
    simp only [hnone, false_and, exists_false, false_iff, mem_pids]
  · rename_i hfull
    have hused := occupata_saltata hempty hlow
    have hseen : (∃ i, c.Guardata i ∧ c.dato i = pid) ↔
        (∃ i, c.Occupata i ∧ i ≠ c.saltata ∧ c.dato i = pid) ∨
          (c.fine = Fin.last maxTaskNum ∧ c.dato 0 = pid) := by
      simp only [guardata_saltata hempty hlow hfull, or_and_right, exists_or, and_assoc,
        exists_and_left, exists_eq_left]
    have hthere : (∃ i, c.Occupata i ∧ c.dato i = pid) ↔
        (∃ i, c.Occupata i ∧ i ≠ c.saltata ∧ c.dato i = pid) ∨ c.dato c.saltata = pid := by
      constructor
      · rintro ⟨i, hi, hdato⟩
        by_cases hsaltata : i = c.saltata
        · exact .inr (hsaltata ▸ hdato)
        · exact .inl ⟨i, hi, hsaltata, hdato⟩
      · rintro (⟨i, hi, -, hdato⟩ | hdato)
        · exact ⟨i, hi, hdato⟩
        · exact ⟨_, hused, hdato⟩
    rw [hseen, hthere]
    by_cases hother : ∃ i, c.Occupata i ∧ i ≠ c.saltata ∧ c.dato i = pid
    · simp only [hother, true_or]
    · simp only [hother, false_or]
      exact iff_comm

/-- A task waits for the last of the pids that have wrapped around the end of the array: it
goes on while the other one is not made. -/
theorem wpid_misses : ∃ s, Run (Computes Tasks.step) Tasks.schedulerInit [.avvio] s ∧
    66 ∈ s.qnotask.pids ∧ s.qnotask.wpid 66 = some false := by
  have hcheck : ([Tasks.Call.avvio].foldlM Tasks.step Tasks.schedulerInit).map (fun s =>
      decide (66 ∈ s.qnotask.pids) && decide (s.qnotask.wpid 66 = some false)) = some true := by
    decide +kernel
  obtain ⟨s, hs, hboth⟩ := Option.map_eq_some_iff.mp hcheck
  rw [Bool.and_eq_true, decide_eq_true_eq, decide_eq_true_eq] at hboth
  exact ⟨s, Run.of_foldlM hs, hboth⟩

end Pidcoda

end OsdevArchive.Cheapos
