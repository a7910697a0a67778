import Mathlib.Algebra.Group.Int.Defs
import Mathlib.Algebra.Group.Nat.Defs
import OsdevArchive.Lib.Runs
import OsdevArchive.Minirighi.Cow

/-!
The queue `cow_pages` entry by entry (`kernel/cow.c`). A page that is shared has one entry with
a counter; a page without an entry is one with the counter zero. Over any run of the two
functions the counter of a page is the number of the `set_shared_page` calls that no
`unset_shared_page` has undone, as long as it fits into an `int`.
-/

namespace OsdevArchive.Minirighi.CowQueue

open OsdevArchive.Lib.Runs

/-- `cow_t`. -/
structure CowPage (F : Type*) where
  addr : F
  count : Int
  deriving DecidableEq

/-- What an `int` keeps of a number. -/
def toInt (n : Int) : Int := Int.bmod n (2 ^ 32)

variable {F : Type*} [DecidableEq F]

/-- `set_shared_page`: the search, the increment, and the new entry at the end of the queue for
which `kmalloc` and `add_queue` have to find memory. The result is `none` for `-ENOMEM`. -/
def setSharedPage (addr : F) (mem node : Bool) :
    List (CowPage F) → List (CowPage F) × Option Int
  | [] => if mem && node then ([⟨addr, 1⟩], some 1) else ([], none)
  | p :: rest =>
    if p.addr = addr then ({ p with count := toInt (p.count + 1) } :: rest,
      some (toInt (p.count + 1)))
    else
      let r := setSharedPage addr mem node rest
      (p :: r.1, r.2)

/-- `unset_shared_page`. -/
def unsetSharedPage (addr : F) : List (CowPage F) → List (CowPage F) × Int
  | [] => ([], 0)
  | p :: rest =>
    if p.addr = addr then
      (if p.count = 0 then rest else { p with count := toInt (p.count - 1) } :: rest, p.count)
    else
      let r := unsetSharedPage addr rest
      (p :: r.1, r.2)

/-- The calls; `mem` and `node` tell whether there is memory for a new entry. -/
inductive Op (F : Type*) where
  | set (addr : F) (mem node : Bool)
  | unset (addr : F)
  deriving DecidableEq

/-- The queue, and for each page the `set_shared_page` calls that were not undone. -/
structure St (F : Type*) where
  pages : List (CowPage F)
  pending : F → Nat

def St.init : St F := ⟨[], fun _ => 0⟩

def St.step (s : St F) : Op F → St F
  | .set addr mem node =>
    let r := setSharedPage addr mem node s.pages
    ⟨r.1, if r.2.isSome then Function.update s.pending addr (s.pending addr + 1)
      else s.pending⟩
  | .unset addr =>
    ⟨(unsetSharedPage addr s.pages).1, Function.update s.pending addr (s.pending addr - 1)⟩

/-- What a call returns. -/
def result (pages : List (CowPage F)) : Op F → Option Int
  | .set addr mem node => (setSharedPage addr mem node pages).2
  | .unset addr => some (unsetSharedPage addr pages).2

/-- What a sequence of calls returns. -/
def results (s : St F) : List (Op F) → List (Option Int)
  | [] => []
  | op :: ops => result s.pages op :: results (s.step op) ops

/-- The counter of the page does not overflow. -/
def St.Fits (s : St F) : Op F → Prop
  | .set addr _ _ => s.pending addr + 1 < 2 ^ 31
  | .unset _ => True

/-! ## The counters -/

/-- The counter of a page, zero without an entry. -/
def counter (pages : List (CowPage F)) (addr : F) : Int :=
  match pages with
  | [] => 0
  | p :: rest => if p.addr = addr then p.count else counter rest addr

variable {pages pages' : List (CowPage F)} {a b : F} {mem node : Bool}

theorem counter_of_notMem (h : a ∉ pages.map CowPage.addr) : counter pages a = 0 := by
  induction pages with
  | nil => rfl
  | cons p rest ih =>
    rw [List.map_cons, List.mem_cons, not_or] at h
    rw [counter, if_neg (Ne.symm h.1), ih h.2]

/-- The call succeeds if the page has an entry or there is memory for one. -/
theorem setSharedPage_snd : (setSharedPage a mem node pages).2 =
    if a ∈ pages.map CowPage.addr ∨ (mem && node) = true then some (toInt (counter pages a + 1))
    else none := by
  induction pages with
  | nil => cases h : (mem && node) <;> simp [setSharedPage, counter, h, toInt]
  | cons p rest ih =>
    rw [setSharedPage, counter, List.map_cons]
    simp only [List.mem_cons]
    by_cases hp : p.addr = a
    · simp [hp]
    · rw [if_neg hp, if_neg hp]
      dsimp only
      rw [ih]
      simp [Ne.symm hp]

theorem setSharedPage_counter : counter (setSharedPage a mem node pages).1 b =
    if b = a ∧ (setSharedPage a mem node pages).2.isSome = true then toInt (counter pages a + 1)
    else counter pages b := by
  induction pages with
  | nil =>
    by_cases hb : b = a
    · subst hb
      cases h : (mem && node) <;> simp [setSharedPage, counter, h, toInt]
    · cases h : (mem && node) <;> simp [setSharedPage, counter, h, hb, Ne.symm hb]
  | cons p rest ih =>
    rw [setSharedPage]
    by_cases hp : p.addr = a
    · by_cases hb : b = a
      · simp [hp, hb, counter]
      · simp [hp, hb, Ne.symm hb, counter]
    · rw [if_neg hp]
      dsimp only
      rw [counter, ih]
      by_cases hb : b = a
      · simp [hb, hp, counter]
      · simp [hb, counter]

theorem setSharedPage_addrs : (setSharedPage a mem node pages).1.map CowPage.addr =
    if a ∈ pages.map CowPage.addr ∨ (mem && node) = false then pages.map CowPage.addr
    else pages.map CowPage.addr ++ [a] := by
  induction pages with
  | nil => cases h : (mem && node) <;> simp [setSharedPage, h]
  | cons p rest ih =>
    rw [setSharedPage, List.map_cons]
    simp only [List.mem_cons]
    by_cases hp : p.addr = a
    · simp [hp]
    · rw [if_neg hp]
      dsimp only
      rw [List.map_cons, ih]
      by_cases h : a ∈ rest.map CowPage.addr ∨ (mem && node) = false
      · rw [if_pos h, if_pos (h.imp_left Or.inr)]
      · rw [if_neg h, if_neg (fun h' => h (h'.imp_left fun h'' =>
          h''.resolve_left (Ne.symm hp)))]
        rfl

theorem unsetSharedPage_snd : (unsetSharedPage a pages).2 = counter pages a := by
  induction pages with
  | nil => rfl
  | cons p rest ih =>
    rw [unsetSharedPage, counter]
    by_cases hp : p.addr = a
    · rw [if_pos hp, if_pos hp]
    · rw [if_neg hp, if_neg hp]
      exact ih

theorem unsetSharedPage_addrs :
    ((unsetSharedPage a pages).1.map CowPage.addr).Sublist (pages.map CowPage.addr) := by
  induction pages with
  | nil => exact List.Sublist.refl _
  | cons p rest ih =>
    rw [unsetSharedPage]
    by_cases hp : p.addr = a
    · rw [if_pos hp]
      dsimp only
      split
      · exact List.sublist_cons_self _ _
      · exact List.Sublist.refl _
    · rw [if_neg hp]
      exact ih.cons_cons p.addr

/-- An entry that was at zero goes, and since it was the only one the counter stays zero. -/
theorem unsetSharedPage_counter (h : (pages.map CowPage.addr).Nodup) :
    counter (unsetSharedPage a pages).1 b =
      if b = a then (if counter pages a = 0 then 0 else toInt (counter pages a - 1))
      else counter pages b := by
  induction pages with
  | nil => simp [unsetSharedPage, counter]
  | cons p rest ih =>
    rw [List.map_cons, List.nodup_cons] at h
    rw [unsetSharedPage]
    by_cases hp : p.addr = a
    · subst hp
      have hrest := counter_of_notMem h.1
      rw [if_pos rfl]
      dsimp only
      by_cases hb : b = p.addr
      · subst hb
        by_cases hz : p.count = 0
        · simp [hz, counter, hrest]
        · simp [hz, counter]
      · by_cases hz : p.count = 0
        · simp [hz, hb, Ne.symm hb, counter]
        · simp [hz, hb, Ne.symm hb, counter]
    · rw [if_neg hp]
      dsimp only
      rw [counter, ih h.2]
      by_cases hb : b = a
      · subst hb
        simp [hp, counter]
      · simp [hb, counter]

theorem setSharedPage_nodup (h : (pages.map CowPage.addr).Nodup) :
    ((setSharedPage a mem node pages).1.map CowPage.addr).Nodup := by
  rw [setSharedPage_addrs]
  split
  · exact h
  · next hnot =>
    rw [not_or] at hnot
    apply List.nodup_append.mpr
    refine ⟨h, List.pairwise_singleton _ a, ?_⟩
    intro x hx y hy heq
    rw [List.mem_singleton] at hy
    exact hnot.1 (hy ▸ heq ▸ hx)

/-- An entry at zero of a page that has no other one changes no counter. -/
theorem counter_insert {pre post : List (CowPage F)}
    (h : a ∉ (pre ++ post).map CowPage.addr) :
    counter (pre ++ ⟨a, 0⟩ :: post) = counter (pre ++ post) := by
  funext b
  induction pre with
  | nil =>
    rw [List.nil_append, List.nil_append, counter]
    by_cases hb : a = b
    · subst hb
      rw [if_pos rfl]
      exact (counter_of_notMem h).symm
    · rw [if_neg hb]
  | cons p pre ih =>
    rw [List.cons_append, List.map_cons, List.mem_cons, not_or] at h
    rw [List.cons_append, List.cons_append, counter, counter, ih h.2]

/-! ## Runs -/

theorem toInt_of_nonneg {n : Int} (h0 : 0 ≤ n) (h : n < 2 ^ 31) : toInt n = n := by
  unfold toInt
  rw [Int.bmod_eq_of_le] <;> omega

/-- No page has two entries, and each counter is what is pending for the page. -/
structure Inv (s : St F) : Prop where
  nodup : (s.pages.map CowPage.addr).Nodup
  counters : ∀ a, counter s.pages a = s.pending a
  fits : ∀ a, s.pending a < 2 ^ 31

variable {s : St F}

theorem Inv.set (hi : Inv s) (mem node : Bool) (hfits : s.pending a + 1 < 2 ^ 31) :
    Inv (s.step (.set a mem node)) := by
  have hcount : toInt (counter s.pages a + 1) = (s.pending a + 1 : Nat) := by
    rw [hi.counters, toInt_of_nonneg (by omega) (by omega)]
    rfl
  constructor
  · exact setSharedPage_nodup hi.nodup
  · intro b
    dsimp only [St.step]
    rw [setSharedPage_counter]
    by_cases hret : (setSharedPage a mem node s.pages).2.isSome = true
    · by_cases hb : b = a
      · subst hb
        rw [if_pos ⟨rfl, hret⟩, if_pos hret, Function.update_self, hcount]
      · rw [if_neg (fun h => hb h.1), if_pos hret, Function.update_of_ne hb, hi.counters]
    · rw [if_neg (fun h => hret h.2), if_neg hret, hi.counters]
  · intro b
    dsimp only [St.step]
    split
    · by_cases hb : b = a
      · subst hb
        rwa [Function.update_self]
      · rw [Function.update_of_ne hb]
        exact hi.fits b
    · exact hi.fits b

theorem Inv.unset (hi : Inv s) (a : F) : Inv (s.step (.unset a)) := by
  constructor
  · exact unsetSharedPage_addrs.nodup hi.nodup
  · intro b
    dsimp only [St.step]
    have hfits := hi.fits a
    rw [unsetSharedPage_counter hi.nodup]
    by_cases hb : b = a
    · subst hb
      rw [if_pos rfl, Function.update_self, hi.counters]
      split
      · omega
      · rw [toInt_of_nonneg (by omega) (by omega)]
        omega
    · rw [if_neg hb, Function.update_of_ne hb, hi.counters]
  · intro b
    dsimp only [St.step]
    by_cases hb : b = a
    · subst hb
      rw [Function.update_self]
      exact Nat.lt_of_le_of_lt (Nat.sub_le _ _) (hi.fits b)
    · rw [Function.update_of_ne hb]
      exact hi.fits b

theorem Inv.init : Inv (St.init : St F) where
  nodup := List.nodup_nil
  counters _ := rfl
  fits _ := Nat.two_pow_pos 31

theorem inv_of_run {ops : List (Op F)}
    (hrun : Run (Guarded St.Fits (Updates St.step)) St.init ops s) : Inv s := by
  apply hrun.guarded_invariant (I := Inv) _ Inv.init
  rintro s op _ hi hfits rfl
  cases op with
  | set a mem node => exact hi.set mem node hfits
  | unset a => exact hi.unset a

/-! ## Pages without an entry -/

/-- There is memory for a new entry. -/
def Op.HasMemory : Op F → Prop
  | .set _ mem node => (mem && node) = true
  | .unset _ => True

/-- Where there is memory the counters decide what is returned, and what they are next. -/
theorem results_congr {s' : St F} (h : (s.pages.map CowPage.addr).Nodup)
    (h' : (s'.pages.map CowPage.addr).Nodup) (hsame : counter s.pages = counter s'.pages)
    {ops : List (Op F)} (hmem : ∀ op ∈ ops, op.HasMemory) : results s ops = results s' ops := by
  induction ops generalizing s s' with
  | nil => rfl
  | cons op ops ih =>
    have hop := hmem op List.mem_cons_self
    have hrest : ∀ op ∈ ops, op.HasMemory := fun o ho => hmem o (List.mem_cons_of_mem op ho)
    rw [results, results]
    cases op with
    | set a mem node =>
      have hret : ∀ pages : List (CowPage F), (setSharedPage a mem node pages).2 =
          some (toInt (counter pages a + 1)) := by
        intro pages
        rw [setSharedPage_snd]
        exact if_pos (Or.inr hop)
      have hnext : counter (s.step (.set a mem node)).pages =
          counter (s'.step (.set a mem node)).pages := by
        funext b
        change counter (setSharedPage a mem node s.pages).1 b =
          counter (setSharedPage a mem node s'.pages).1 b
        rw [setSharedPage_counter, setSharedPage_counter, hret, hret, hsame]
      have hfirst : result s.pages (.set a mem node) = result s'.pages (.set a mem node) := by
        rw [result, result, hret, hret, hsame]
      rw [hfirst, ih (setSharedPage_nodup h) (setSharedPage_nodup h') hnext hrest]
    | unset a =>
      have hnext : counter (s.step (.unset a)).pages =
          counter (s'.step (.unset a)).pages := by
        funext b
        change counter (unsetSharedPage a s.pages).1 b = counter (unsetSharedPage a s'.pages).1 b
        rw [unsetSharedPage_counter h, unsetSharedPage_counter h', hsame]
      have hfirst : result s.pages (.unset a) = result s'.pages (.unset a) := by
        rw [result, result, unsetSharedPage_snd, unsetSharedPage_snd, hsame]
      rw [hfirst, ih (unsetSharedPage_addrs.nodup h)
        (unsetSharedPage_addrs.nodup h') hnext hrest]

/-- In every run whose counters do not overflow: no page has two entries; the caller is told to
be the only owner exactly if nothing is pending; and a page without an entry answers all further
calls for which there is memory like one whose entry is at zero. -/
theorem shared_counts (ops : List (Op F)) (s : St F)
    (hrun : Run (Guarded St.Fits (Updates St.step)) St.init ops s) :
    (s.pages.map CowPage.addr).Nodup ∧
    (∀ a, result s.pages (.unset a) = some 0 ↔ s.pending a = 0) ∧
    ∀ a, a ∉ s.pages.map CowPage.addr → ∀ pre post, s.pages = pre ++ post →
      ∀ later, (∀ op ∈ later, op.HasMemory) →
        results s later = results { s with pages := pre ++ ⟨a, 0⟩ :: post } later := by
  have hi := inv_of_run hrun
  refine ⟨hi.nodup, ?_, ?_⟩
  · intro a
    rw [result, unsetSharedPage_snd, hi.counters, Option.some.injEq]
    exact Int.natCast_eq_zero
  · intro a ha pre post hsplit later hlater
    have hperm : ((pre ++ ⟨a, 0⟩ :: post).map CowPage.addr).Perm
        (a :: s.pages.map CowPage.addr) := by
      rw [hsplit, List.map_append, List.map_cons, List.map_append]
      exact List.perm_middle
    have hnodup : ((pre ++ ⟨a, 0⟩ :: post).map CowPage.addr).Nodup :=
      hperm.nodup_iff.mpr (List.nodup_cons.mpr ⟨ha, hi.nodup⟩)
    apply results_congr hi.nodup hnodup _ hlater
    rw [hsplit] at ha ⊢
    exact (counter_insert ha).symm

/-- A page is shared twice and unset once. -/
theorem shared_twice : ∃ s : St Nat,
    Run (Guarded St.Fits (Updates St.step)) St.init
      [.set 7 true true, .set 7 true true, .unset 7] s ∧
    (s.pages.map CowPage.addr).Nodup ∧ (result s.pages (.unset 7) = some 0 ↔ s.pending 7 = 0) ∧
      s.pending 7 = 1 := by
  have hrun : Run (Guarded St.Fits (Updates St.step)) (St.init : St Nat)
      [.set 7 true true, .set 7 true true, .unset 7]
      (((St.init.step (.set 7 true true)).step (.set 7 true true)).step (.unset 7)) := by
    refine .cons ⟨?_, rfl⟩ (.cons ⟨?_, rfl⟩ (.cons ⟨trivial, rfl⟩ (.nil _)))
    · exact (by decide : 0 + 1 < 2 ^ 31)
    · exact (by decide : 1 + 1 < 2 ^ 31)
  obtain ⟨hnodup, hret, -⟩ := shared_counts _ _ hrun
  exact ⟨_, hrun, hnodup, hret 7, by decide⟩

/-- Without memory for an entry the page is not shared: the next `unset_shared_page` reports a
sole owner although the page was to be shared once. -/
theorem refused_page_not_shared :
    result ([] : List (CowPage Nat)) (.set 7 false true) = none ∧
    results St.init [Op.set 7 false true, .unset 7] = [none, some 0] := by
  decide

end OsdevArchive.Minirighi.CowQueue
