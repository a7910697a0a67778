import Mathlib.Tactic.Common
import OsdevArchive.Lib.Fifo
import OsdevArchive.Lib.RingBuffer

/-!
The queues of pids of cheapos (`pidcoda.c`): rings that are filled and read from the top
downwards. Read upside down they are the rings of the library. The queue of keys
(`keycoda.c`) is one too; its array has a cell more than the ring. Then what both kinds of
queues do in any sequence of calls.
-/

namespace OsdevArchive.Cheapos

open OsdevArchive.Lib.Fifo OsdevArchive.Lib.RingBuffer

/-- `MAX_TASK_NUM`. -/
def maxTaskNum : Nat := 128

instance (priority := high) : NeZero (maxTaskNum + 1) := ⟨by decide⟩

/-- `pidcoda_t`. -/
structure Pidcoda where
  dato : Fin (maxTaskNum + 1) → Int
  inizio : Fin (maxTaskNum + 1)
  fine : Fin (maxTaskNum + 1)

namespace Pidcoda

/-- `(i-1+MAX_TASK_NUM+1)%(MAX_TASK_NUM+1)`. -/
def retro (i : Fin (maxTaskNum + 1)) : Fin (maxTaskNum + 1) :=
  Fin.ofNat (maxTaskNum + 1) (i.val + maxTaskNum)

/-- `pidcoda_init`. -/
def init : Pidcoda where
  dato _ := 0
  inizio := Fin.ofNat (maxTaskNum + 1) (maxTaskNum / 2)
  fine := Fin.ofNat (maxTaskNum + 1) (maxTaskNum / 2)

variable (c : Pidcoda)

/-- `pidcoda_elements`. -/
def elements : Nat := (c.fine.val + (maxTaskNum + 1) - c.inizio.val) % (maxTaskNum + 1)

/-- `pidcoda_pop`. -/
def pop : Int × Pidcoda :=
  if c.elements = 0 then (-1, c) else (c.dato c.fine, { c with fine := retro c.fine })

/-- `pidcoda_ins`. -/
def ins (pid : Int) : Pidcoda :=
  if c.elements < maxTaskNum then
    { c with dato := Function.update c.dato c.inizio pid, inizio := retro c.inizio }
  else c

/-- What `pidcoda_ins` returns. -/
def insEsito : Int := if c.elements < maxTaskNum then 1 else -1

/-- The ring upside down. -/
def ring : RingQueue (maxTaskNum + 1) Int where
  cells i := c.dato i.rev
  head := c.fine.rev
  tail := c.inizio.rev

/-- The pids of a queue, the first to be popped in front. -/
def pids : List Int := c.ring.contents

variable {c : Pidcoda} {pid : Int}

theorem elements_eq (c : Pidcoda) : c.elements = c.pids.length :=
  (RingQueue.upsideDown_length c.dato c.fine c.inizio).symm

theorem pop_nil (h : c.pids = []) : c.pop = (-1, c) := by
  rw [pop, elements_eq, h]
  rfl

theorem pop_cons {rest : List Int} (h : c.pids = pid :: rest) :
    ∃ c', c.pop = (pid, c') ∧ c'.pids = rest := by
  obtain ⟨hhead, htake⟩ := c.ring.contents_take h
  have hfirst : c.dato c.fine = pid := by
    simpa only [ring, Fin.rev_rev] using hhead
  refine ⟨{ c with fine := retro c.fine }, ?_, ?_⟩
  · rw [pop, elements_eq, h, List.length_cons, if_neg (Nat.succ_ne_zero _), hfirst]
  · rw [← htake]
    exact congrArg RingQueue.contents (RingQueue.upsideDown_take c.dato c.fine c.inizio)

theorem pids_ins (h : c.pids.length < maxTaskNum) : (c.ins pid).pids = c.pids ++ [pid] := by
  have hput : (c.ring.put pid).contents = c.pids ++ [pid] :=
    c.ring.contents_put (Nat.succ_lt_succ h)
  rw [← hput, ins, elements_eq, if_pos h]
  exact congrArg RingQueue.contents (RingQueue.upsideDown_put c.dato c.fine c.inizio pid)

/-- A pid that is popped and put back goes behind the others. -/
theorem pop_ins {front behind : List Int} (h : c.pids = pid :: front ++ behind)
    (hroom : c.pids.length ≤ maxTaskNum) :
    ∃ c', c.pop = (pid, c') ∧ c'.pids = front ++ behind ∧
      (c'.ins pid).pids = front ++ (behind ++ [pid]) ∧
      (c'.ins pid).pids.length = c.pids.length := by
  rw [List.cons_append] at h
  obtain ⟨c', hpop, hrest⟩ := pop_cons h
  rw [h, List.length_cons] at hroom
  have hback : (c'.ins pid).pids = front ++ (behind ++ [pid]) := by
    rw [pids_ins (by rw [hrest]; omega), hrest, List.append_assoc]
  refine ⟨c', hpop, hrest, hback, ?_⟩
  rw [hback, h, ← List.append_assoc, List.length_append]
  rfl

theorem pids_eq_nil (h : c.fine = c.inizio) : c.pids = [] :=
  RingQueue.Contains.contents_eq (RingQueue.Contains.nil (congrArg Fin.rev h))

theorem pids_init : init.pids = [] := pids_eq_nil rfl

theorem pids_foldl_ins {l : List Int} (h : c.pids.length + l.length ≤ maxTaskNum) :
    (l.foldl ins c).pids = c.pids ++ l := by
  induction l generalizing c with
  | nil => rw [List.foldl_nil, List.append_nil]
  | cons pid l ih =>
    rw [List.length_cons] at h
    have hins : (c.ins pid).pids = c.pids ++ [pid] := pids_ins (by omega)
    rw [List.foldl_cons, ih, hins, List.append_assoc, List.singleton_append]
    rw [hins, List.length_append, List.length_singleton]
    omega

end Pidcoda

/-- `KEY_BUFFER_LUNG`. -/
def keyBufferLung : Nat := 20

/-- `keycoda_t`. -/
structure Keycoda where
  dato : Fin (keyBufferLung + 1) → BitVec 8
  inizio : Fin keyBufferLung
  fine : Fin keyBufferLung

instance : NeZero keyBufferLung := ⟨by decide⟩

namespace Keycoda

/-- `(i-1+KEY_BUFFER_LUNG)%KEY_BUFFER_LUNG`. -/
def retro (i : Fin keyBufferLung) : Fin keyBufferLung :=
  Fin.ofNat keyBufferLung (i.val + (keyBufferLung - 1))

/-- `keycoda_init`; the last cell of the array is not cleared. -/
def init (resto : BitVec 8) : Keycoda where
  dato i := if i.val < keyBufferLung then 0 else resto
  inizio := Fin.ofNat keyBufferLung (keyBufferLung / 2)
  fine := Fin.ofNat keyBufferLung (keyBufferLung / 2)

variable (c : Keycoda)

/-- `keycoda_elements`. -/
def elements : Nat := (c.fine.val + keyBufferLung - c.inizio.val) % keyBufferLung

/-- `keycoda_pop`. -/
def pop : BitVec 8 × Keycoda :=
  if c.elements = 0 then (0, c)
  else (c.dato c.fine.castSucc, { c with fine := retro c.fine })

/-- `keycoda_ins`. -/
def ins (key : BitVec 8) : Int × Keycoda :=
  if c.elements < keyBufferLung - 1 then
    (1, { c with dato := Function.update c.dato c.inizio.castSucc key, inizio := retro c.inizio })
  else (0, c)

/-- The ring upside down. -/
def ring : RingQueue keyBufferLung (BitVec 8) :=
  RingQueue.upsideDown (fun i => c.dato i.castSucc) c.fine c.inizio

/-- The keys of a queue, the first to be popped in front. -/
def keys : List (BitVec 8) := c.ring.contents

variable {c : Keycoda} {key : BitVec 8}

theorem elements_eq (c : Keycoda) : c.elements = c.keys.length :=
  (RingQueue.upsideDown_length _ c.fine c.inizio).symm

theorem keys_eq_nil (h : c.fine = c.inizio) : c.keys = [] :=
  RingQueue.Contains.contents_eq (RingQueue.Contains.nil (congrArg Fin.rev h))

theorem pop_nil (h : c.keys = []) : c.pop = (0, c) := by
  rw [pop, elements_eq, h]
  rfl

theorem pop_cons {rest : List (BitVec 8)} (h : c.keys = key :: rest) :
    ∃ c', c.pop = (key, c') ∧ c'.keys = rest := by
  obtain ⟨hhead, htake⟩ := c.ring.contents_take h
  have hfirst : c.dato c.fine.castSucc = key := by
    simpa only [ring, RingQueue.upsideDown, Fin.rev_rev] using hhead
  refine ⟨{ c with fine := retro c.fine }, ?_, ?_⟩
  · rw [pop, elements_eq, h, List.length_cons, if_neg (Nat.succ_ne_zero _), hfirst]
  · rw [← htake]
    exact congrArg RingQueue.contents (RingQueue.upsideDown_take _ c.fine c.inizio)

theorem ins_room (key : BitVec 8) (h : c.keys.length < keyBufferLung - 1) :
    ∃ c', c.ins key = (1, c') ∧ c'.keys = c.keys ++ [key] := by
  have hput : (c.ring.put key).contents = c.keys ++ [key] :=
    c.ring.contents_put (Nat.add_lt_of_lt_sub h)
  have hcells : (fun i : Fin keyBufferLung =>
      Function.update c.dato c.inizio.castSucc key i.castSucc) =
      Function.update (fun i => c.dato i.castSucc) c.inizio key := by
    funext i
    simp only [Function.update_apply, Fin.castSucc_inj]
  refine ⟨_, by rw [ins, elements_eq, if_pos h], ?_⟩
  rw [← hput, keys, ring, hcells]
  exact congrArg RingQueue.contents (RingQueue.upsideDown_put _ c.fine c.inizio key)

theorem ins_full (h : c.keys.length = keyBufferLung - 1) : c.ins key = (0, c) := by
  rw [ins, elements_eq, h, if_neg (Nat.lt_irrefl _)]

/-- The calls, with `int` for what they return. -/
def program : Program Keycoda (BitVec 8) Int where
  insert := ins
  extract c := (c.pop.1.toNat, c.pop.2)
  elements := elements
  reply
    | .done => 1
    | .full => 0
    | .element key => key.toNat
    | .empty => 0

theorem program_implements :
    program.Implements (keyBufferLung - 1) fun c keys => c.keys = keys where
  elements c _ h := by
    rw [← h]
    exact elements_eq c
  insert c keys key h hroom := by
    obtain ⟨c', hins, hkeys⟩ := ins_room key (h.symm ▸ hroom)
    exact ⟨c', hins, by rw [hkeys, h]⟩
  full c keys key h hfull := ins_full (h.symm ▸ hfull)
  extract c keys key h := by
    obtain ⟨c', hpop, hkeys⟩ := pop_cons h
    exact ⟨c', by simp only [program, hpop], hkeys⟩
  empty c h := by
    simp only [program, pop_nil h]
    rfl
  distinct := by decide

end Keycoda

namespace Pidcoda

/-- The calls with what they return. -/
def program : Program Pidcoda Int Int where
  insert c pid := (c.insEsito, c.ins pid)
  extract := pop
  elements := elements
  reply
    | .done => 1
    | .full => -1
    | .element pid => pid
    | .empty => -1

theorem program_implements : program.Implements maxTaskNum fun c pids => c.pids = pids where
  elements c _ h := by
    rw [← h]
    exact elements_eq c
  insert c pids pid h hroom := by
    subst h
    refine ⟨c.ins pid, ?_, pids_ins hroom⟩
    simp only [program, insEsito, elements_eq, if_pos hroom]
  full c pids pid h hfull := by
    subst h
    have hnot : ¬ c.pids.length < maxTaskNum := by omega
    simp only [program, insEsito, ins, elements_eq, if_neg hnot]
  extract c pids pid h := pop_cons h
  empty c h := pop_nil h
  distinct := by decide

end Pidcoda

/-- From any index at which a queue starts empty, in every sequence of insertions and
extractions, the queues of pids and of keys behave like bounded queues. -/
theorem queues_behave :
    (∀ (c : Pidcoda) (calls : List (Call Int)), c.fine = c.inizio →
      Pidcoda.program.Behaves maxTaskNum c calls) ∧
    ∀ (c : Keycoda) (calls : List (Call (BitVec 8))), c.fine = c.inizio →
      Keycoda.program.Behaves (keyBufferLung - 1) c calls :=
  ⟨fun _ calls h => Pidcoda.program_implements.behaves (Pidcoda.pids_eq_nil h) calls,
    fun _ calls h => Keycoda.program_implements.behaves (Keycoda.keys_eq_nil h) calls⟩

/-- The queues as they are initialized, in a sequence that ends with a failure. -/
theorem queues_behave_init :
    Pidcoda.program.Behaves maxTaskNum .init [.insert 3, .insert 4, .extract, .extract, .extract] ∧
      Keycoda.program.Behaves (keyBufferLung - 1) (.init 0) [.insert 97, .extract, .extract] :=
  ⟨queues_behave.1 .init _ rfl, queues_behave.2 (.init 0) _ rfl⟩

end OsdevArchive.Cheapos
