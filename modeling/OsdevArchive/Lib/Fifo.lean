import Mathlib.Data.List.Basic

/-!
Bounded first-in first-out queues, and programs that implement them. A call and what it
answers say which element went in or came out; what has gone in is always what has come out
followed by what is left.
-/

namespace OsdevArchive.Lib.Fifo

variable {α β γ ρ σ τ : Type*}

inductive Call (α : Type*) where
  | insert (a : α)
  | extract

inductive Answer (α : Type*) where
  | done
  | full
  | element (a : α)
  | empty

/-- What a call answers and leaves; the oldest element is in front. -/
def perform (capacity : Nat) (q : List α) : Call α → Answer α × List α
  | .insert a => if q.length < capacity then (.done, q ++ [a]) else (.full, q)
  | .extract =>
    match q with
    | [] => (.empty, [])
    | a :: q => (.element a, q)

/-- What goes in with a call. -/
def Call.taken : Call α → Answer α → List α
  | .insert a, .done => [a]
  | _, _ => []

/-- What comes out with an answer. -/
def Answer.given : Answer α → List α
  | .element a => [a]
  | _ => []

/-- Calls one after the other: their replies, and the state behind them. -/
def replies (f : σ → β → ρ × σ) : σ → List β → List ρ × σ
  | s, [] => ([], s)
  | s, b :: bs =>
    let (r, s) := f s b
    let (rs, s) := replies f s bs
    (r :: rs, s)

def inserted (calls : List (Call α)) (answers : List (Answer α)) : List α :=
  (List.zipWith Call.taken calls answers).flatten

def extracted (answers : List (Answer α)) : List α := answers.flatMap Answer.given

variable {capacity : Nat} {q : List α} {a : α}

theorem perform_conserves (capacity : Nat) (q : List α) (c : Call α) :
    q ++ c.taken (perform capacity q c).1 =
      (perform capacity q c).1.given ++ (perform capacity q c).2 := by
  cases c with
  | insert a =>
    rw [perform]
    split
    · rfl
    · exact List.append_nil q
  | extract =>
    cases q with
    | nil => rfl
    | cons a q => exact List.append_nil _

/-- Elements come out once and in the order in which they went in. -/
theorem replies_conserve (capacity : Nat) (q : List α) (calls : List (Call α)) :
    q ++ inserted calls (replies (perform capacity) q calls).1 =
      extracted (replies (perform capacity) q calls).1 ++
        (replies (perform capacity) q calls).2 := by
  induction calls generalizing q with
  | nil => exact List.append_nil q
  | cons c calls ih =>
    have hfirst := perform_conserves capacity q c
    have hrest := ih (perform capacity q c).2
    simp only [inserted, extracted, replies, List.zipWith_cons_cons, List.flatten_cons,
      List.flatMap_cons] at hrest ⊢
    rw [← List.append_assoc, hfirst, List.append_assoc, hrest, List.append_assoc]

theorem perform_length_le (c : Call α) (h : q.length ≤ capacity) :
    (perform capacity q c).2.length ≤ capacity := by
  cases c with
  | insert a =>
    rw [perform]
    split
    · rw [List.length_append, List.length_singleton]
      omega
    · exact h
  | extract =>
    cases q with
    | nil => exact h
    | cons a q => exact Nat.le_of_succ_le h

/-- Where each call replies alike, up to a translation, so do calls in a row. -/
theorem replies_simulate {R : σ → τ → Prop} {f : σ → β → ρ × σ} {g : τ → β → γ × τ} (e : γ → ρ)
    (hstep : ∀ s t b, R s t → (f s b).1 = e (g t b).1 ∧ R (f s b).2 (g t b).2)
    {s : σ} {t : τ} (hR : R s t) (bs : List β) :
    (replies f s bs).1 = (replies g t bs).1.map e ∧ R (replies f s bs).2 (replies g t bs).2 := by
  induction bs generalizing s t with
  | nil => exact ⟨rfl, hR⟩
  | cons b bs ih =>
    obtain ⟨hfirst, hnext⟩ := hstep s t b hR
    obtain ⟨hrest, hlast⟩ := ih hnext
    refine ⟨?_, hlast⟩
    simp only [replies, List.map_cons, hfirst, hrest]

/-! ### Programs -/

/-- The operations of a queue as a program has them, and how it puts an answer. -/
structure Program (γ α ρ : Type*) where
  insert : γ → α → ρ × γ
  extract : γ → ρ × γ
  elements : γ → Nat
  reply : Answer α → ρ

namespace Program

variable {P : Program γ α ρ} {R : γ → List α → Prop} {c : γ}

def perform (P : Program γ α ρ) (c : γ) : Call α → ρ × γ
  | .insert a => P.insert c a
  | .extract => P.extract c

/-- What is expected of a queue behind some calls from `c` on. An operation fails when it
says so and leaves the queue as it is. -/
structure Behaves (P : Program γ α ρ) (capacity : Nat) (c : γ) (calls : List (Call α)) : Prop where
  replies : (Fifo.replies P.perform c calls).1 =
    (Fifo.replies (Fifo.perform capacity) [] calls).1.map P.reply
  order : ∃ left, inserted calls (Fifo.replies (Fifo.perform capacity) [] calls).1 =
    extracted (Fifo.replies (Fifo.perform capacity) [] calls).1 ++ left
  elements : P.elements (Fifo.replies P.perform c calls).2 =
    (inserted calls (Fifo.replies (Fifo.perform capacity) [] calls).1).length -
      (extracted (Fifo.replies (Fifo.perform capacity) [] calls).1).length
  full : ∀ a, P.insert (Fifo.replies P.perform c calls).2 a =
      (P.reply .full, (Fifo.replies P.perform c calls).2) ↔
    P.elements (Fifo.replies P.perform c calls).2 = capacity
  empty : P.extract (Fifo.replies P.perform c calls).2 =
      (P.reply .empty, (Fifo.replies P.perform c calls).2) ↔
    P.elements (Fifo.replies P.perform c calls).2 = 0

/-- `R` says which elements a queue of the program holds, and each operation keeps to it. -/
structure Implements (P : Program γ α ρ) (capacity : Nat) (R : γ → List α → Prop) : Prop where
  elements : ∀ c q, R c q → P.elements c = q.length
  insert : ∀ c q a, R c q → q.length < capacity →
    ∃ c', P.insert c a = (P.reply .done, c') ∧ R c' (q ++ [a])
  full : ∀ c q a, R c q → q.length = capacity → P.insert c a = (P.reply .full, c)
  extract : ∀ c q a, R c (a :: q) → ∃ c', P.extract c = (P.reply (.element a), c') ∧ R c' q
  empty : ∀ c, R c [] → P.extract c = (P.reply .empty, c)
  distinct : P.reply .done ≠ P.reply .full

/-- A queue of the program that holds the elements of a bounded queue. -/
def Holds (capacity : Nat) (R : γ → List α → Prop) (c : γ) (q : List α) : Prop :=
  R c q ∧ q.length ≤ capacity

theorem Implements.perform (h : P.Implements capacity R) (hR : Holds capacity R c q)
    (b : Call α) :
    (P.perform c b).1 = P.reply (Fifo.perform capacity q b).1 ∧
      Holds capacity R (P.perform c b).2 (Fifo.perform capacity q b).2 := by
  have hle := perform_length_le b hR.2
  cases b with
  | insert a =>
    rw [Program.perform]
    by_cases hroom : q.length < capacity
    · obtain ⟨c', hinsert, hc'⟩ := h.insert c q a hR.1 hroom
      rw [hinsert, Fifo.perform, if_pos hroom]
      rw [Fifo.perform, if_pos hroom] at hle
      exact ⟨rfl, hc', hle⟩
    · have hfull : q.length = capacity := Nat.le_antisymm hR.2 (Nat.le_of_not_lt hroom)
      rw [h.full c q a hR.1 hfull, Fifo.perform, if_neg hroom]
      exact ⟨rfl, hR⟩
  | extract =>
    cases q with
    | nil =>
      rw [Program.perform, h.empty c hR.1]
      exact ⟨rfl, hR⟩
    | cons a q =>
      obtain ⟨c', hextract, hc'⟩ := h.extract c q a hR.1
      rw [Program.perform, hextract]
      exact ⟨rfl, hc', hle⟩

theorem Implements.full_iff (h : P.Implements capacity R) (hR : Holds capacity R c q) (a : α) :
    P.insert c a = (P.reply .full, c) ↔ P.elements c = capacity := by
  rw [h.elements c q hR.1]
  constructor
  · intro hfull
    by_contra hne
    obtain ⟨c', hinsert, -⟩ := h.insert c q a hR.1 (Nat.lt_of_le_of_ne hR.2 hne)
    exact h.distinct (congrArg Prod.fst (hinsert.symm.trans hfull))
  · exact h.full c q a hR.1

theorem Implements.empty_iff (h : P.Implements capacity R) (hR : Holds capacity R c q) :
    P.extract c = (P.reply .empty, c) ↔ P.elements c = 0 := by
  cases q with
  | nil => exact iff_of_true (h.empty c hR.1) (h.elements c [] hR.1)
  | cons a q =>
    have helements := h.elements c _ hR.1
    refine iff_of_false (fun hempty => ?_) (by rw [helements]; exact Nat.succ_ne_zero _)
    obtain ⟨c', hextract, hc'⟩ := h.extract c q a hR.1
    -- the queue would hold one element less than it does
    obtain rfl : c' = c := congrArg Prod.snd (hextract.symm.trans hempty)
    have hless := h.elements _ q hc'
    rw [helements, List.length_cons] at hless
    omega

/-- A program whose operations keep to the elements behaves like a bounded queue. -/
theorem Implements.behaves (h : P.Implements capacity R) (hR : R c []) (calls : List (Call α)) :
    P.Behaves capacity c calls := by
  have hstart : Holds capacity R c [] := ⟨hR, Nat.zero_le _⟩
  obtain ⟨hreplies, hlast⟩ := replies_simulate (R := Holds capacity R) (f := P.perform)
    P.reply (fun _ _ b hcq => h.perform hcq b) hstart calls
  have hconserve := replies_conserve capacity [] calls
  rw [List.nil_append] at hconserve
  refine ⟨hreplies, ⟨_, hconserve⟩, ?_, h.full_iff hlast, h.empty_iff hlast⟩
  rw [h.elements _ _ hlast.1, hconserve, List.length_append, Nat.add_sub_cancel_left]

end Program

end OsdevArchive.Lib.Fifo
