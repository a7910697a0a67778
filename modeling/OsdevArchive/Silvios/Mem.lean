import OsdevArchive.Lib.Stretches
import Mathlib.Algebra.BigOperators.Intervals
import Mathlib.Data.BitVec

/-!
The memory of SilviOS (`mem/mem.c`). Pages are counted from one, and page `n` is in
`page_vect[n - 1]` with the colour of the allocation that it belongs to, or zero.
-/

namespace OsdevArchive.Silvios

/-- `DIM_PAGE`. -/
def dimPage : Nat := 4096

namespace Mem

open OsdevArchive.Lib.Stretches

/-- `NUM_PAGES`. -/
def maxPages : Nat := 70000

/-- `VUOTO`. -/
def vuoto : BitVec 32 := 0

abbrev PageVect := Nat → BitVec 32

structure Memory where
  pageVect : PageVect
  color : BitVec 32
  numPages : Nat

def setbitmapbit (pageVect : PageVect) (page : Nat) (color : BitVec 32) : PageVect :=
  Function.update pageVect (page - 1) color

def isset (pageVect : PageVect) (page : Nat) : Bool := decide (pageVect (page - 1) ≠ 0)

/-- The pages from `page` on, one after the other. -/
def setbitmapbits (pageVect : PageVect) (page n : Nat) (color : BitVec 32) : PageVect :=
  (List.range' page n).foldl (fun v p => setbitmapbit v p color) pageVect

/-- The pages of the first megabyte. -/
def lowPages : Nat := 2 ^ 20 / dimPage

def initmem (memEnd : Nat) : Memory :=
  let numPages := memEnd / dimPage
  let color := vuoto
  let pageVect := setbitmapbits (fun _ => 0) 1 numPages vuoto
  let color := color + 1
  ⟨setbitmapbits pageVect 1 lowPages color, color, numPages⟩

/-- How the loop over `count2` in `kmalloc` ends. -/
inductive Scan where
  | enough
  | stopped (count2 : Nat)
  | ended (foundcount : Nat)

/-- The loop over `count2`, with the number of pages that are left. -/
def scan (pageVect : PageVect) (pages : Nat) : Nat → Nat → Nat → Scan
  | 0, _, foundcount => .ended foundcount
  | left + 1, count2, foundcount =>
    if !isset pageVect count2 then
      if foundcount + 1 ≥ pages then .enough
      else scan pageVect pages left (count2 + 1) (foundcount + 1)
    else .stopped count2

/-- The loop over `count`, whose rounds are at most as many as the pages. -/
def search (pageVect : PageVect) (pages numPages : Nat) : Nat → Nat → Nat → Option Nat
  | 0, _, _ => none
  | left + 1, count, foundcount =>
    if count ≤ numPages then
      if !isset pageVect count then
        if pages = 1 ∨ pages = 0 then some count
        else
          match scan pageVect pages (numPages - count) (count + 1) foundcount with
          | .enough => some count
          | .stopped count2 => search pageVect pages numPages left (count2 + 1) 0
          -- the pages that were found are not forgotten
          | .ended foundcount => search pageVect pages numPages left (count + 1) foundcount
      else search pageVect pages numPages left (count + 1) foundcount
    else none

/-- The number of pages that a size takes. -/
def pagesFor (size : Nat) : Nat :=
  if size % dimPage ≠ 0 then size / dimPage + 1 else size / dimPage

/-- `kmalloc`, with the address if it is not `NULL`. -/
def kmalloc (m : Memory) (size : Nat) : Option Nat × Memory :=
  let color := m.color + 1
  let pages := pagesFor size
  match search m.pageVect pages m.numPages m.numPages 1 0 with
  | some count =>
    let pageVect :=
      if pages = 1 ∨ pages = 0 then setbitmapbit m.pageVect count color
      else setbitmapbits m.pageVect count pages color
    (some (dimPage * (count - 1)), { m with color := color, pageVect := pageVect })
  | none => (none, { m with color := color })

/-- The first loop of `free_color`, with the number of pages that are left. -/
def findColor (pageVect : PageVect) (color : BitVec 32) : Nat → Nat → Option Nat
  | 0, _ => none
  | left + 1, i => if pageVect i = color then some i else findColor pageVect color left (i + 1)

/-- The second loop of `free_color`, up to the end of `page_vect`. -/
def clearColor (color : BitVec 32) : Nat → PageVect → Nat → PageVect
  | 0, pageVect, _ => pageVect
  | left + 1, pageVect, i =>
    if pageVect i = color then clearColor color left (Function.update pageVect i 0) (i + 1)
    else pageVect

def freeColor (pageVect : PageVect) (color : BitVec 32) : PageVect :=
  match findColor pageVect color maxPages 0 with
  | none => pageVect
  | some i => clearColor color (maxPages - i) pageVect i

def kfree (m : Memory) (pointer : Nat) : Memory :=
  { m with pageVect := freeColor m.pageVect (m.pageVect (pointer / dimPage)) }

/-! ### The search -/

/-- Page `q`, counted from zero, is free. -/
abbrev Free (pageVect : PageVect) (q : Nat) : Prop := pageVect q = 0

variable {v : PageVect} {pages n left q found : Nat} {color : BitVec 32}

theorem not_isset : (!isset v (q + 1)) = true ↔ Free v q := by
  unfold isset
  rw [Nat.add_sub_cancel]
  simp [Free]

theorem scan_cases (h : found < pages) :
    (∃ k ≤ left, scan v pages left (q + 1) found = .enough ∧ Stretch (Free v) q k ∧
      found + k = pages) ∨
    (∃ k < left, scan v pages left (q + 1) found = .stopped (q + k + 1) ∧
      Stretch (Free v) q k ∧ ¬ Free v (q + k) ∧ found + k < pages) ∨
    scan v pages left (q + 1) found = .ended (found + left) ∧ Stretch (Free v) q left ∧
      found + left < pages := by
  induction left generalizing q found with
  | zero => exact .inr (.inr ⟨rfl, stretch_zero _ _, h⟩)
  | succ left ih =>
    unfold scan
    split
    · rename_i hunset
      have hfree : Free v q := not_isset.mp hunset
      split
      · rename_i henough
        refine .inl ⟨1, by omega, rfl, (stretch_zero _ _).cons hfree, by omega⟩
      · rename_i hmore
        obtain ⟨k, hk, hscan, hstretch, hsum⟩ | ⟨k, hk, hscan, hstretch, hset, hsum⟩ |
          ⟨hscan, hstretch, hsum⟩ := @ih (q + 1) (found + 1) (by omega)
        · exact .inl ⟨k + 1, by omega, hscan, hstretch.cons hfree, by omega⟩
        · have hplace : q + (k + 1) = q + 1 + k := by omega
          refine .inr (.inl ⟨k + 1, by omega, ?_, hstretch.cons hfree, ?_, by omega⟩)
          · rw [hplace, hscan]
          · rwa [hplace]
        · have hplace : found + (left + 1) = found + 1 + left := by omega
          rw [hplace]
          exact .inr (.inr ⟨hscan, hstretch.cons hfree, hsum⟩)
    · rename_i hset
      rw [not_isset] at hset
      exact .inr (.inl ⟨0, by omega, rfl, stretch_zero _ _, hset, by omega⟩)

/-- One round of the loop, on a free page. -/
theorem search_free (hq : q < n) (hpages : 2 ≤ pages) (hfree : Free v q) :
    search v pages n (left + 1) (q + 1) found =
      match scan v pages (n - (q + 1)) (q + 2) found with
      | .enough => some (q + 1)
      | .stopped count2 => search v pages n left (count2 + 1) 0
      | .ended found => search v pages n left (q + 2) found := by
  have hmany : ¬ (pages = 1 ∨ pages = 0) := by omega
  conv =>
    lhs
    unfold search
  rw [if_pos (show q + 1 ≤ n from hq), if_pos (not_isset.mpr hfree), if_neg hmany]

/-- A page that is not free is passed over. -/
theorem search_set (hq : q < n) (hset : ¬ Free v q) :
    search v pages n (left + 1) (q + 1) found = search v pages n left (q + 2) found := by
  conv =>
    lhs
    unfold search
  rw [if_pos (show q + 1 ≤ n from hq), if_neg (mt not_isset.mp hset)]

/-- Behind the last page that is not free, the pages that were found are counted up from one
round to the next. -/
theorem search_last (hpages : 2 ≤ pages) (hle : q ≤ n) (hfree : Stretch (Free v) q (n - q))
    (hfound : found < pages) (hleft : n ≤ q + left) :
    if pages ≤ found + ∑ i ∈ Finset.range (n - q), i then
      ∃ c, q ≤ c ∧ search v pages n left (q + 1) found = some (c + 1)
    else search v pages n left (q + 1) found = none := by
  induction left generalizing q found with
  | zero =>
    have hnone : n - q = 0 := by omega
    rw [hnone, Finset.range_zero, Finset.sum_empty, if_neg (by omega)]
    rfl
  | succ left ih =>
    obtain rfl | hlt := Nat.eq_or_lt_of_le hle
    · rw [Nat.sub_self, Finset.range_zero, Finset.sum_empty, if_neg (by omega)]
      unfold search
      exact if_neg (by omega)
    · obtain ⟨m, hm⟩ : ∃ m, n - q = m + 1 := ⟨n - q - 1, by omega⟩
      have hrest : n - (q + 1) = m := by omega
      rw [hm] at hfree ⊢
      rw [search_free hlt hpages (hfree q (Nat.le_refl q) (by omega)), hrest,
        Finset.sum_range_succ]
      obtain ⟨k, hk, hscan, -, hsum⟩ | ⟨k, hk, -, -, hset, -⟩ | ⟨hscan, -, hsum⟩ :=
        @scan_cases v pages m (q + 1) found hfound
      · rw [hscan, if_pos (by omega)]
        exact ⟨q, Nat.le_refl q, rfl⟩
      · exact absurd (hfree _ (by omega) (by omega)) hset
      · rw [hscan]
        have hsame : found + (∑ i ∈ Finset.range m, i + m) =
            found + m + ∑ i ∈ Finset.range m, i := by omega
        have htail := @ih (q + 1) (found + m) hlt (by rw [hrest]; exact hfree.tail) hsum (by omega)
        rw [hrest] at htail
        rw [hsame]
        split at htail
        · rename_i henough
          obtain ⟨c, hc, hsearch⟩ := htail
          rw [if_pos henough]
          exact ⟨c, Nat.le_of_succ_le hc, hsearch⟩
        · rename_i hfew
          rw [if_neg hfew]
          exact htail

/-- The number that the pages of the last stretch are counted up to. -/
def counted (v : PageVect) (n : Nat) : Nat := ∑ i ∈ Finset.range (lastLength (Free v) n), i

theorem counted_zero (h : ∀ p, p + 1 = n → ¬ Free v p) : counted v n = 0 := by
  unfold counted
  rw [lastLength_eq (Nat.le_refl n) (by rw [Nat.sub_self]; exact stretch_zero _ _) h, Nat.sub_self,
    Finset.range_zero, Finset.sum_empty]

/-- Behind the last page nothing is found, and no page is counted. -/
theorem search_over {r : Option Nat} (hpages : 2 ≤ pages)
    (hstart : ∀ p, p + 1 = n → ¬ Free v p)
    (hbefore : ∀ a, a + (pages + 1) ≤ n → Stretch (Free v) a (pages + 1) → n ≤ a)
    (hr : r = none) :
    ¬ HasStretch (Free v) n (pages + 1) ∧
      if pages ≤ counted v n then ∃ c, n < c + pages ∧ r = some (c + 1) else r = none := by
  refine ⟨?_, ?_⟩
  · rintro ⟨a, hle, hstretch⟩
    exact absurd (hbefore a hle hstretch) (by omega)
  · rw [counted_zero hstart, if_neg (by omega)]
    exact hr

/-- The search from a page behind one that is not free, where no page before it starts a
stretch with one page more than are needed. -/
theorem search_cases (hpages : 2 ≤ pages) (hq : q ≤ n) (hleft : n ≤ q + left)
    (hstart : ∀ p, p + 1 = q → ¬ Free v p)
    (hbefore : ∀ a, a + (pages + 1) ≤ n → Stretch (Free v) a (pages + 1) → q ≤ a) :
    (∃ a, search v pages n left (q + 1) 0 = some (a + 1) ∧ a + (pages + 1) ≤ n ∧
      Stretch (Free v) a (pages + 1)) ∨
    ¬ HasStretch (Free v) n (pages + 1) ∧
      if pages ≤ counted v n then
        ∃ c, n < c + pages ∧ search v pages n left (q + 1) 0 = some (c + 1)
      else search v pages n left (q + 1) 0 = none := by
  induction left generalizing q with
  | zero =>
    obtain rfl : q = n := by omega
    exact .inr (search_over hpages hstart hbefore rfl)
  | succ left ih =>
    obtain rfl | hlt := Nat.eq_or_lt_of_le hq
    · refine .inr (search_over hpages hstart hbefore ?_)
      unfold search
      exact if_neg (by omega)
    by_cases hfree : Free v q
    · rw [search_free hlt hpages hfree]
      obtain ⟨k, hk, hscan, hstretch, hsum⟩ | ⟨k, hk, hscan, hstretch, hset, hsum⟩ |
        ⟨hscan, hstretch, hsum⟩ :=
          @scan_cases v pages (n - (q + 1)) (q + 1) 0 (by omega)
      · rw [Nat.zero_add] at hsum
        rw [hscan]
        rw [hsum] at hk hstretch
        exact .inl ⟨q, rfl, by omega, hstretch.cons hfree⟩
      · rw [hscan]
        apply ih (by omega) (by omega)
        · intro p hp
          obtain rfl : p = q + 1 + k := by omega
          exact hset
        · exact start_behind hbefore hset (by omega)
      · rw [hscan]
        have hall : Stretch (Free v) q (n - q) := by
          have hlen : n - q = n - (q + 1) + 1 := by omega
          rw [hlen]
          exact hstretch.cons hfree
        have hcounted : counted v n =
            0 + (n - (q + 1)) + ∑ i ∈ Finset.range (n - (q + 1)), i := by
          have hlen : n - q = n - (q + 1) + 1 := by omega
          unfold counted
          rw [lastLength_eq hq hall hstart, hlen, Finset.sum_range_succ]
          omega
        have hlast := @search_last v pages n left (q + 1) (0 + (n - (q + 1))) hpages hlt hstretch
          hsum (by omega)
        refine .inr ⟨?_, ?_⟩
        · rintro ⟨a, hle, ha⟩
          have hge := hbefore a hle ha
          omega
        · rw [hcounted]
          split at hlast
          · rename_i henough
            obtain ⟨c, hc, hsearch⟩ := hlast
            rw [if_pos henough]
            exact ⟨c, by omega, hsearch⟩
          · rename_i hfew
            rw [if_neg hfew]
            exact hlast
    · rw [search_set hlt hfree]
      apply ih hlt (by omega)
      · intro p hp
        obtain rfl : p = q := by omega
        exact hfree
      · exact start_behind hbefore hfree (by omega)

/-- The search for one page. -/
theorem search_single (hpages : pages = 1 ∨ pages = 0) (hleft : n ≤ q + left) :
    (∃ a, search v pages n left (q + 1) found = some (a + 1) ∧ a < n ∧ Free v a) ∨
      search v pages n left (q + 1) found = none ∧ ∀ a, q ≤ a → a < n → ¬ Free v a := by
  induction left generalizing q with
  | zero =>
    refine .inr ⟨rfl, fun a hle hlt => ?_⟩
    omega
  | succ left ih =>
    obtain hend | hq := Nat.lt_or_ge n (q + 1)
    · refine .inr ⟨?_, fun a hle hlt => ?_⟩
      · unfold search
        exact if_neg (Nat.not_le.mpr hend)
      · omega
    by_cases hfree : Free v q
    · refine .inl ⟨q, ?_, hq, hfree⟩
      unfold search
      rw [if_pos hq, if_pos (not_isset.mpr hfree), if_pos hpages]
    · rw [search_set hq hfree]
      obtain hfound | ⟨hnone, hset⟩ := @ih (q + 1) (by omega)
      · exact .inl hfound
      · refine .inr ⟨hnone, fun a hle hlt => ?_⟩
        obtain rfl | hgt := Nat.eq_or_lt_of_le hle
        · exact hfree
        · exact hset a hgt hlt

/-! ### Allocating -/

/-- The pages that an allocation gets; one of no size gets a page, too. -/
def taken (size : Nat) : Nat := max (pagesFor size) 1

theorem le_taken (size : Nat) : size ≤ dimPage * taken size := by
  unfold taken pagesFor dimPage
  split
  · omega
  · omega

theorem setbitmapbits_apply (v : PageVect) (a k : Nat) (color : BitVec 32) (q : Nat) :
    setbitmapbits v (a + 1) k color q = if a ≤ q ∧ q < a + k then color else v q := by
  unfold setbitmapbits
  induction k generalizing a v with
  | zero =>
    rw [if_neg (by omega)]
    rfl
  | succ k ih =>
    rw [List.range'_succ, List.foldl_cons, ih]
    unfold setbitmapbit
    rw [Nat.add_sub_cancel, Function.update_apply]
    split
    · rw [if_pos (by omega)]
    · split
      · rw [if_pos (by omega)]
      · rw [if_neg (by omega)]

variable {m : Memory} {size : Nat}

/-- The memory after the pages from `a` on have been given away. -/
def Memory.give (m : Memory) (a size : Nat) : Memory where
  pageVect := fun q => if a ≤ q ∧ q < a + taken size then m.color + 1 else m.pageVect q
  color := m.color + 1
  numPages := m.numPages

theorem kmalloc_some {a : Nat}
    (h : search m.pageVect (pagesFor size) m.numPages m.numPages 1 0 = some (a + 1)) :
    kmalloc m size = (some (dimPage * a), m.give a size) := by
  unfold kmalloc Memory.give
  dsimp only
  rw [h]
  dsimp only
  congr 2
  funext q
  unfold taken
  split
  · rename_i hone
    have htaken : max (pagesFor size) 1 = 1 := by omega
    unfold setbitmapbit
    rw [htaken, Nat.add_sub_cancel, Function.update_apply]
    split
    · rw [if_pos (by omega)]
    · rw [if_neg (by omega)]
  · rename_i hmany
    have htaken : max (pagesFor size) 1 = pagesFor size := by omega
    rw [htaken, setbitmapbits_apply]

theorem kmalloc_none (h : search m.pageVect (pagesFor size) m.numPages m.numPages 1 0 = none) :
    kmalloc m size = (none, { m with color := m.color + 1 }) := by
  unfold kmalloc
  dsimp only
  rw [h]

/-- `kmalloc` gives away a stretch of free pages, and `NULL` if there is none. -/
def Answers (m : Memory) (size : Nat) : Prop :=
  (∃ a, kmalloc m size = (some (dimPage * a), m.give a size) ∧ a + taken size ≤ m.numPages ∧
    Stretch (Free m.pageVect) a (taken size)) ∨
  kmalloc m size = (none, { m with color := m.color + 1 }) ∧
    ¬ HasStretch (Free m.pageVect) m.numPages (taken size)

/-- One page is asked for, or there is a stretch of one page more than is asked for, or none
that is long enough, and the pages of the last one are not counted up to the size. -/
def Searchable (m : Memory) (size : Nat) : Prop :=
  pagesFor size ≤ 1 ∨ HasStretch (Free m.pageVect) m.numPages (pagesFor size + 1) ∨
    ¬ HasStretch (Free m.pageVect) m.numPages (pagesFor size) ∧
      counted m.pageVect m.numPages < pagesFor size

/-- Where the search goes wrong, it gives away pages behind the end of the memory, or it does
not see a stretch of just as many pages. -/
theorem kmalloc_cases (m : Memory) (size : Nat) :
    Searchable m size ∧ Answers m size ∨ ¬ Searchable m size ∧
      ((∃ a, kmalloc m size = (some (dimPage * a), m.give a size) ∧
        m.numPages < a + taken size) ∨
      kmalloc m size = (none, { m with color := m.color + 1 }) ∧
        HasStretch (Free m.pageVect) m.numPages (taken size)) := by
  obtain hone | hmany := Nat.lt_or_ge (pagesFor size) 2
  · have htaken : taken size = 1 := by
      unfold taken
      omega
    refine .inl ⟨.inl (Nat.le_of_lt_succ hone), ?_⟩
    unfold Answers
    rw [htaken]
    obtain ⟨a, hsearch, hlt, hfree⟩ | ⟨hnone, hset⟩ :=
      @search_single m.pageVect (pagesFor size) m.numPages m.numPages 0 0 (by omega) (by omega)
    · exact .inl ⟨a, kmalloc_some hsearch, hlt, (stretch_zero _ _).cons hfree⟩
    · refine .inr ⟨kmalloc_none hnone, ?_⟩
      rintro ⟨a, hle, hfree⟩
      exact hset a (Nat.zero_le a) hle (hfree a (Nat.le_refl a) (Nat.lt_succ_self a))
  · have htaken : taken size = pagesFor size := by
      unfold taken
      omega
    unfold Answers
    rw [htaken]
    obtain ⟨a, hsearch, hle, hfree⟩ | ⟨hlong, hlast⟩ :=
      @search_cases m.pageVect (pagesFor size) m.numPages m.numPages 0 hmany (Nat.zero_le _)
        (by omega) (fun p hp => absurd hp (Nat.succ_ne_zero p)) (fun a _ _ => Nat.zero_le a)
    · refine .inl ⟨.inr (.inl ⟨a, hle, hfree⟩), .inl ⟨a, kmalloc_some hsearch, by omega, ?_⟩⟩
      exact hfree.shorter (Nat.le_succ _)
    · split at hlast
      · rename_i hcounted
        obtain ⟨c, hc, hsearch⟩ := hlast
        refine .inr ⟨?_, .inl ⟨c, kmalloc_some hsearch, hc⟩⟩
        rintro (hfew | hmore | ⟨-, hless⟩)
        · omega
        · exact hlong hmore
        · omega
      · rename_i hcounted
        by_cases hhas : HasStretch (Free m.pageVect) m.numPages (pagesFor size)
        · refine .inr ⟨?_, .inr ⟨kmalloc_none hlast, hhas⟩⟩
          rintro (hfew | hmore | ⟨hnot, -⟩)
          · omega
          · exact hlong hmore
          · exact hnot hhas
        · exact .inl ⟨.inr (.inr ⟨hhas, by omega⟩), .inr ⟨kmalloc_none hlast, hhas⟩⟩

/-! ### Freeing -/

theorem findColor_some {i a : Nat} (hle : i ≤ a) (hlt : a < i + left) (ha : v a = color)
    (hfirst : ∀ q, i ≤ q → q < a → v q ≠ color) : findColor v color left i = some a := by
  induction left generalizing i with
  | zero => omega
  | succ left ih =>
    unfold findColor
    obtain rfl | hgt := Nat.eq_or_lt_of_le hle
    · rw [if_pos ha]
    · rw [if_neg (hfirst i (Nat.le_refl i) hgt)]
      exact ih hgt (by omega) fun q hq => hfirst q (Nat.le_of_succ_le hq)

/-- The loop clears the pages of the colour that follow one another. -/
theorem clearColor_stretch {a k : Nat} (hk : k ≤ left) (hsame : Stretch (fun q => v q = color) a k)
    (hend : v (a + k) ≠ color) :
    clearColor color left v a = fun q => if a ≤ q ∧ q < a + k then 0 else v q := by
  induction k generalizing left v a with
  | zero =>
    have hnone : (fun q => if a ≤ q ∧ q < a + 0 then 0 else v q) = v := by
      funext q
      rw [if_neg (by omega)]
    rw [hnone]
    cases left with
    | zero => rfl
    | succ left =>
      unfold clearColor
      exact if_neg hend
  | succ k ih =>
    obtain ⟨left, rfl⟩ : ∃ l, left = l + 1 := ⟨left - 1, by omega⟩
    unfold clearColor
    rw [if_pos (hsame a (Nat.le_refl a) (by omega)), ih (by omega)]
    · funext q
      rw [Function.update_apply]
      split
      · rw [if_pos (by omega)]
      · split
        · rw [if_pos (by omega)]
        · rw [if_neg (by omega)]
    · refine hsame.tail.congr fun q hle hlt hq => ?_
      rw [Function.update_of_ne (by omega)]
      exact hq
    · rw [Function.update_of_ne (by omega)]
      have hplace : a + 1 + k = a + (k + 1) := by omega
      rwa [hplace]

/-- Where the pages of a colour are a stretch, `free_color` frees these pages. -/
theorem freeColor_stretch {a k : Nat} (hk : 0 < k) (hle : a + k ≤ maxPages)
    (hclass : ∀ q, v q = color ↔ a ≤ q ∧ q < a + k) :
    freeColor v color = fun q => if a ≤ q ∧ q < a + k then 0 else v q := by
  have hfound : findColor v color maxPages 0 = some a := by
    apply findColor_some (Nat.zero_le a) (by omega) ((hclass a).mpr (by omega))
    intro q _ hlt heq
    have hin := (hclass q).mp heq
    omega
  unfold freeColor
  rw [hfound]
  refine clearColor_stretch (by omega) (fun q hq hlt => (hclass q).mpr ⟨hq, hlt⟩) fun heq => ?_
  have hin := (hclass (a + k)).mp heq
  omega

/-- Nothing changes when free pages are freed. -/
theorem freeColor_zero (v : PageVect) : freeColor v 0 = v := by
  have hclear (left i : Nat) : clearColor 0 left v i = v := by
    induction left generalizing i with
    | zero => rfl
    | succ left ih =>
      unfold clearColor
      split
      · rename_i hzero
        have hsame : Function.update v i 0 = v := Function.update_eq_self_iff.mpr hzero.symm
        rw [hsame]
        exact ih (i + 1)
      · rfl
  unfold freeColor
  split
  · rfl
  · exact hclear _ _

end Mem

end OsdevArchive.Silvios
