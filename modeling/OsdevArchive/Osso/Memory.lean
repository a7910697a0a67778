import Mathlib.Data.List.Nodup
import OsdevArchive.Lib.Counting
import OsdevArchive.Lib.Runs

/-!
The physical page allocator of OSSO (`kernel/memory.c`). `pagelist` has one byte for
each page; data pages and directories are searched for from its start, page tables from
its end. System calls and interrupt handlers run with the interrupts disabled and no
function here blocks, so calls follow one another. A page is named by its index in
`pagine`. The bytes behind the last entry are memory like any other.
-/

namespace OsdevArchive.Osso.Memory

open OsdevArchive.Lib.Counting OsdevArchive.Lib.Runs

abbrev Dword := BitVec 32

/-- The value of a byte of `pagelist`. -/
inductive PageKind where
  | freepage
  | datapage
  | pdirpage
  | ptabpage
  | other (byte : BitVec 8)
  deriving DecidableEq

def dimPage : Dword := 4096

/-- `BASE_PAGE_ADDR`. -/
def basePageAddr : Dword := 0x100000

def swapPages : Dword := 0

/-- The variables of `memory.c`, and the indices at which `pagelist` was accessed. -/
structure State where
  pagelist : Nat → PageKind
  memPages : Dword
  numPages : Dword
  freePages : Dword
  ptPages : Dword
  examined : List Nat

/-- `meminit`, for a memory of this size. -/
def meminit (memorySize : Dword) (stray : Nat → PageKind) : State :=
  let pages := (memorySize - basePageAddr) / dimPage
  let dimPagelist := pages / dimPage + if pages % dimPage ≠ 0 then 1 else 0
  let memPages := pages - dimPagelist
  let numPages := memPages + swapPages
  { pagelist := fun i => if i < numPages.toNat then .freepage else stray i
    memPages := memPages
    numPages := numPages
    freePages := numPages
    ptPages := memPages - 1
    examined := List.range numPages.toNat }

def State.look (s : State) (i : Nat) : State := { s with examined := i :: s.examined }

def State.set (s : State) (i : Nat) (kind : PageKind) : State :=
  { s with pagelist := Function.update s.pagelist i kind }

/-- What becomes of a call. `never` stands for a search that does not end. -/
inductive Outcome where
  | page (i : Nat)
  | null
  | done
  | panic
  | never
  deriving DecidableEq

/-- `pagelist[i]` ends the search of `mem_getpage`. -/
def State.Stops (s : State) (i : Nat) : Prop :=
  s.pagelist i = .freepage ∨ s.pagelist i = .ptabpage

instance (s : State) (i : Nat) : Decidable (s.Stops i) := inferInstanceAs (Decidable (_ ∨ _))

/-- The loop of `mem_getpage`, from index `i` on. -/
def scan : Nat → Nat → State → Option Nat × State
  | 0, _, s => (none, s)
  | fuel + 1, i, s =>
    if s.Stops i then (some i, s.look i) else scan fuel (i + 1) (s.look i)

/-- `mem_getpage`. Nothing bounds its search but the size of a word. -/
def memGetpage (tipo : PageKind) (s : State) : Outcome × State :=
  match scan (2 ^ 32) 0 s with
  | (none, s) => (.never, s)
  | (some i, s) =>
    if s.pagelist i = .freepage then
      (.page i, { s.set i tipo with freePages := s.freePages - 1 })
    else (.panic, s)

def getpage : State → Outcome × State := memGetpage .datapage

def getpagedirectory : State → Outcome × State := memGetpage .pdirpage

def getpagetable (s : State) : Outcome × State :=
  let i := s.ptPages.toNat
  let s := s.look i
  if s.pagelist i = .freepage then
    (.page i, { s.set i .ptabpage with ptPages := s.ptPages - 1, freePages := s.freePages - 1 })
  else (.null, s)

/-- `freepage`. A page that is free already is reported, and counted again. -/
def freepage (pagina : Nat) (s : State) : Outcome × State :=
  let s := s.look pagina
  (.done, { s.set pagina .freepage with freePages := s.freePages + 1 })

/-! ### Runs of calls -/

inductive Call where
  | getpage
  | getpagedirectory
  | getpagetable
  | freepage (pagina : Nat)
  deriving DecidableEq

def State.call (s : State) : Call → Outcome × State
  | .getpage => Memory.getpage s
  | .getpagedirectory => Memory.getpagedirectory s
  | .getpagetable => Memory.getpagetable s
  | .freepage pagina => Memory.freepage pagina s

/-- The allocator and its callers: the pages that were returned and not yet freed. -/
structure System where
  mem : State
  live : List Nat
  halted : Bool

/-- What the callers keep of a call. -/
def System.after (s : System) : Outcome × State → System
  | (.page i, mem) => { mem := mem, live := i :: s.live, halted := s.halted }
  | (.null, mem) | (.done, mem) => { s with mem := mem }
  | (.panic, mem) | (.never, mem) => { s with mem := mem, halted := true }

/-- A call. Only live pages are freed. -/
def exec (s : System) (c : Call) : Option System :=
  if s.halted then none
  else
    match c with
    | .freepage pagina =>
      if pagina ∈ s.live then
        some { s.after (s.mem.call c) with live := s.live.erase pagina }
      else none
    | _ => some (s.after (s.mem.call c))

def boot (memorySize : Dword) (stray : Nat → PageKind) : System :=
  { mem := meminit memorySize stray, live := [], halted := false }

/-- The number of free entries of `pagelist`. -/
def State.freeEntries (s : State) : Nat :=
  tally (· == PageKind.freepage) fun i : Fin s.numPages.toNat => s.pagelist i

/-- `free_pages` is right, no page is handed out twice, and no index is out of range. -/
structure Sound (s : System) : Prop where
  counted : s.mem.freePages.toNat = s.mem.freeEntries
  once : s.live.Nodup
  returned : ∀ i ∈ s.live, i < s.mem.numPages.toNat
  examined : ∀ i ∈ s.mem.examined, i < s.mem.numPages.toNat

/-- A search for a page finds an entry to stop at, and the cursor for page tables is
still in range. -/
def Allowed (s : System) : Call → Prop
  | .getpage | .getpagedirectory => ∃ i < s.mem.numPages.toNat, s.mem.Stops i
  | .getpagetable => s.mem.ptPages.toNat < s.mem.numPages.toNat
  | .freepage _ => True

instance (s : System) (c : Call) : Decidable (Allowed s c) :=
  match c with
  | .getpage | .getpagedirectory =>
    inferInstanceAs (Decidable (∃ i < s.mem.numPages.toNat, s.mem.Stops i))
  | .getpagetable => inferInstanceAs (Decidable (s.mem.ptPages.toNat < s.mem.numPages.toNat))
  | .freepage _ => inferInstanceAs (Decidable True)

/-! ### The search -/

/-- A state in which further indices have been examined. -/
def State.saw (s : State) (seen : List Nat) : State :=
  { s with examined := seen ++ s.examined }

/-- The index at which the search of `mem_getpage` stops. -/
structure FirstStop (s : State) (k : Nat) : Prop where
  stops : s.Stops k
  first : ∀ i < k, ¬ s.Stops i

/-- The loop either stops at the first index that ends the search or passes them all. -/
theorem scan_cases (fuel i : Nat) (s : State) :
    (∃ k, i ≤ k ∧ k < i + fuel ∧ s.Stops k ∧ (∀ j, i ≤ j → j < k → ¬ s.Stops j) ∧
      ∃ seen, scan fuel i s = (some k, s.saw seen) ∧ ∀ j, j ∈ seen ↔ i ≤ j ∧ j ≤ k) ∨
    ((∀ j, i ≤ j → j < i + fuel → ¬ s.Stops j) ∧
      ∃ seen, scan fuel i s = (none, s.saw seen) ∧ ∀ j, j ∈ seen ↔ i ≤ j ∧ j < i + fuel) := by
  induction fuel generalizing i s with
  | zero => exact .inr ⟨by omega, [], rfl, by simp⟩
  | succ fuel ih =>
    by_cases hstop : s.Stops i
    · refine .inl ⟨i, by omega, by omega, hstop, by omega, [i], if_pos hstop, ?_⟩
      intro j
      rw [List.mem_singleton]
      omega
    · have hnext : scan (fuel + 1) i s = scan fuel (i + 1) (s.look i) := if_neg hstop
      have hsaw (seen : List Nat) : (s.look i).saw seen = s.saw (seen ++ [i]) := by
        simp [State.saw, State.look]
      have hearlier {j : Nat} (hij : i ≤ j) (hj : i + 1 ≤ j → ¬ s.Stops j) : ¬ s.Stops j := by
        rcases hij.eq_or_lt with rfl | hlt
        · exact hstop
        · exact hj hlt
      rw [hnext]
      rcases ih (i + 1) (s.look i) with
        ⟨k, hik, hk, hstops, hfirst, seen, hscan, hseen⟩ | ⟨hnone, seen, hscan, hseen⟩
      · refine .inl ⟨k, by omega, by omega, hstops, ?_, seen ++ [i], ?_, ?_⟩
        · exact fun j hij hj => hearlier hij fun h => hfirst j h hj
        · rw [hscan, hsaw]
        · intro j
          rw [List.mem_append, hseen, List.mem_singleton]
          omega
      · refine .inr ⟨?_, seen ++ [i], ?_, ?_⟩
        · exact fun j hij hj => hearlier hij fun h => hnone j h (by omega)
        · rw [hscan, hsaw]
        · intro j
          rw [List.mem_append, hseen, List.mem_singleton]
          omega

/-- `mem_getpage` hands out the page at which its search stops, or panics at a page table,
or searches all memory. -/
theorem memGetpage_cases (tipo : PageKind) (s : State) :
    (∃ k seen, FirstStop s k ∧ (∀ j, j ∈ seen ↔ j ≤ k) ∧
      (s.pagelist k = .freepage ∧ memGetpage tipo s =
          (.page k, { (s.saw seen).set k tipo with freePages := s.freePages - 1 }) ∨
        s.pagelist k = .ptabpage ∧ memGetpage tipo s = (.panic, s.saw seen))) ∨
    ∃ seen, (∀ j < 2 ^ 32, ¬ s.Stops j) ∧ (∀ j, j ∈ seen ↔ j < 2 ^ 32) ∧
      memGetpage tipo s = (.never, s.saw seen) := by
  rcases scan_cases (2 ^ 32) 0 s with
    ⟨k, -, -, hstops, hfirst, seen, hscan, hseen⟩ | ⟨hnone, seen, hscan, hseen⟩
  · refine .inl ⟨k, seen, ⟨hstops, fun j hj => hfirst j j.zero_le hj⟩, by simpa using hseen, ?_⟩
    rcases hstops with hfree | hptab
    · refine .inl ⟨hfree, ?_⟩
      rw [memGetpage, hscan]
      exact if_pos hfree
    · refine .inr ⟨hptab, ?_⟩
      have hused : s.pagelist k ≠ .freepage := by
        rw [hptab]
        exact PageKind.noConfusion
      rw [memGetpage, hscan]
      exact if_neg hused
  · refine .inr ⟨seen, fun j hj => hnone j j.zero_le (by omega), by simpa using hseen, ?_⟩
    rw [memGetpage, hscan]

/-! ### The entries that are free -/

/-- An entry of `pagelist` that changes. -/
theorem freeEntries_set (s : State) (i : Nat) (kind : PageKind) (hi : i < s.numPages.toNat) :
    (s.set i kind).freeEntries + (s.pagelist i == .freepage).toNat =
      s.freeEntries + (kind == PageKind.freepage).toNat := by
  have hset : (fun j : Fin s.numPages.toNat => (s.set i kind).pagelist j) =
      Function.update (fun j : Fin s.numPages.toNat => s.pagelist j) ⟨i, hi⟩ kind :=
    Function.update_comp_eq_of_injective s.pagelist Fin.val_injective ⟨i, hi⟩ kind
  have hmove := tally_update (· == PageKind.freepage)
    (fun j : Fin s.numPages.toNat => s.pagelist j) ⟨i, hi⟩ kind
  rw [← hset] at hmove
  exact hmove

theorem freeEntries_le (s : State) : s.freeEntries ≤ s.numPages.toNat :=
  (tally_le_card ..).trans_eq (Fintype.card_fin _)

theorem freeEntries_pos {s : State} {i : Nat} (hi : i < s.numPages.toNat)
    (hfree : s.pagelist i = .freepage) : 0 < s.freeEntries := by
  apply tally_pos (i := ⟨i, hi⟩)
  rw [hfree, beq_self_eq_true]

theorem exists_free {s : State} (hpos : 0 < s.freeEntries) :
    ∃ i < s.numPages.toNat, s.pagelist i = .freepage := by
  obtain ⟨i, hi⟩ := exists_of_tally_pos hpos
  exact ⟨i, i.isLt, eq_of_beq hi⟩

/-! ### One call -/

/-- Handing out page `k` as `kind`. -/
def System.take (s : System) (seen : List Nat) (k : Nat) (kind : PageKind) (ptPages : Dword) :
    System :=
  { mem := { (s.mem.saw seen).set k kind with
      ptPages := ptPages, freePages := s.mem.freePages - 1 }
    live := k :: s.live
    halted := s.halted }

/-- Handing out nothing. -/
def System.pass (s : System) (seen : List Nat) (halted : Bool) : System :=
  { s with mem := s.mem.saw seen, halted := halted }

def System.release (s : System) (pagina : Nat) : System :=
  { mem := { (s.mem.saw [pagina]).set pagina .freepage with freePages := s.mem.freePages + 1 }
    live := s.live.erase pagina
    halted := s.halted }

/-- What a call of `getpage` or `getpagedirectory` can do. -/
structure Searches (s : System) (kind : PageKind) (t : System) : Prop where
  used : kind ≠ .freepage
  notTable : kind ≠ .ptabpage
  cases :
    (∃ k seen, FirstStop s.mem k ∧ (∀ j, j ∈ seen ↔ j ≤ k) ∧
      (s.mem.pagelist k = .freepage ∧ t = s.take seen k kind s.mem.ptPages ∨
        s.mem.pagelist k = .ptabpage ∧ t = s.pass seen true)) ∨
    ∃ seen, (∀ j < 2 ^ 32, ¬ s.mem.Stops j) ∧ (∀ j, j ∈ seen ↔ j < 2 ^ 32) ∧
      t = s.pass seen true

theorem searches_after (s : System) {kind : PageKind} (hused : kind ≠ .freepage)
    (htable : kind ≠ .ptabpage) : Searches s kind (s.after (memGetpage kind s.mem)) := by
  refine ⟨hused, htable, ?_⟩
  rcases memGetpage_cases kind s.mem with
    ⟨k, seen, hfirst, hseen, ⟨hfree, hresult⟩ | ⟨hptab, hresult⟩⟩ | ⟨seen, hnone, hseen, hresult⟩
  · exact .inl ⟨k, seen, hfirst, hseen, .inl ⟨hfree, by rw [hresult]; rfl⟩⟩
  · exact .inl ⟨k, seen, hfirst, hseen, .inr ⟨hptab, by rw [hresult]; rfl⟩⟩
  · exact .inr ⟨seen, hnone, hseen, by rw [hresult]; rfl⟩

theorem exec_cases {s t : System} {c : Call} (h : exec s c = some t) :
    (∃ kind, (c = .getpage ∨ c = .getpagedirectory) ∧ Searches s kind t) ∨
    (c = .getpagetable ∧ s.mem.pagelist s.mem.ptPages.toNat = .freepage ∧
      t = s.take [s.mem.ptPages.toNat] s.mem.ptPages.toNat .ptabpage (s.mem.ptPages - 1)) ∨
    (c = .getpagetable ∧ s.mem.pagelist s.mem.ptPages.toNat ≠ .freepage ∧
      t = s.pass [s.mem.ptPages.toNat] s.halted) ∨
    ∃ pagina ∈ s.live, c = .freepage pagina ∧ t = s.release pagina := by
  unfold exec at h
  split at h
  · cases h
  · cases c with
    | getpage =>
      obtain rfl := Option.some.inj h
      exact .inl ⟨.datapage, .inl rfl, searches_after s (by decide) (by decide)⟩
    | getpagedirectory =>
      obtain rfl := Option.some.inj h
      exact .inl ⟨.pdirpage, .inr rfl, searches_after s (by decide) (by decide)⟩
    | getpagetable =>
      obtain rfl := Option.some.inj h
      by_cases hfree : s.mem.pagelist s.mem.ptPages.toNat = .freepage
      · have hresult : getpagetable s.mem = (.page s.mem.ptPages.toNat, _) := if_pos hfree
        refine .inr (.inl ⟨rfl, hfree, ?_⟩)
        rw [State.call, hresult]
        rfl
      · have hresult : getpagetable s.mem = (.null, _) := if_neg hfree
        refine .inr (.inr (.inl ⟨rfl, hfree, ?_⟩))
        rw [State.call, hresult]
        rfl
    | freepage pagina =>
      simp only at h
      split at h
      · next hlive =>
        obtain rfl := Option.some.inj h
        exact .inr (.inr (.inr ⟨pagina, hlive, rfl, rfl⟩))
      · cases h

/-! ### The invariant -/

/-- The live pages are those whose entries are in use. -/
structure Inv (s : System) : Prop extends Sound s where
  kept : ∀ i < s.mem.numPages.toNat, i ∈ s.live ↔ s.mem.pagelist i ≠ .freepage

theorem Inv.take {s : System} (hinv : Inv s) {seen : List Nat} {k : Nat} {kind : PageKind}
    (ptPages : Dword) (hk : k < s.mem.numPages.toNat) (hfree : s.mem.pagelist k = .freepage)
    (hused : kind ≠ .freepage) (hseen : ∀ j ∈ seen, j < s.mem.numPages.toNat) :
    Inv (s.take seen k kind ptPages) := by
  have hnew : k ∉ s.live := fun hlive => (hinv.kept k hk).mp hlive hfree
  constructor
  · constructor
    · have hset := freeEntries_set (s.mem.saw seen) k kind hk
      have hold : ((s.mem.saw seen).pagelist k == PageKind.freepage) = true := beq_iff_eq.mpr hfree
      have hkind : (kind == PageKind.freepage) = false := beq_eq_false_iff_ne.mpr hused
      have hpos := freeEntries_pos hk hfree
      have hcounted := hinv.counted
      rw [hold, hkind] at hset
      have hsame : (s.mem.saw seen).freeEntries = s.mem.freeEntries := rfl
      have hgoal : (s.take seen k kind ptPages).mem.freeEntries =
        ((s.mem.saw seen).set k kind).freeEntries := rfl
      have hone : (1 : Dword) ≤ s.mem.freePages := by
        rw [BitVec.le_def, hcounted]
        exact hpos
      have hword : (s.take seen k kind ptPages).mem.freePages.toNat =
          s.mem.freePages.toNat - 1 := BitVec.toNat_sub_of_le hone
      rw [hgoal, hword]
      simp only [Bool.toNat_true, Bool.toNat_false] at hset
      omega
    · exact List.nodup_cons.mpr ⟨hnew, hinv.once⟩
    · exact List.forall_mem_cons.mpr ⟨hk, hinv.returned⟩
    · intro j hj
      exact (List.mem_append.mp hj).elim (hseen j) (hinv.examined j)
  · intro i hi
    have hentry : (s.take seen k kind ptPages).mem.pagelist i =
      Function.update s.mem.pagelist k kind i := rfl
    rw [hentry, System.take, List.mem_cons]
    by_cases hik : i = k
    · subst hik
      simp [hused]
    · rw [Function.update_of_ne hik, hinv.kept i hi]
      simp [hik]

theorem Inv.pass {s : System} (hinv : Inv s) {seen : List Nat} (halted : Bool)
    (hseen : ∀ j ∈ seen, j < s.mem.numPages.toNat) : Inv (s.pass seen halted) where
  counted := hinv.counted
  once := hinv.once
  returned := hinv.returned
  examined := fun j hj => (List.mem_append.mp hj).elim (hseen j) (hinv.examined j)
  kept := hinv.kept

theorem Inv.release {s : System} (hinv : Inv s) {pagina : Nat} (hlive : pagina ∈ s.live) :
    Inv (s.release pagina) := by
  have hin := hinv.returned pagina hlive
  have hused := (hinv.kept pagina hin).mp hlive
  constructor
  · constructor
    · have hset := freeEntries_set (s.mem.saw [pagina]) pagina .freepage hin
      have hold : ((s.mem.saw [pagina]).pagelist pagina == PageKind.freepage) = false :=
        beq_eq_false_iff_ne.mpr hused
      rw [hold, beq_self_eq_true] at hset
      have hbound := freeEntries_le ((s.mem.saw [pagina]).set pagina .freepage)
      have hcounted := hinv.counted
      have hsame : (s.mem.saw [pagina]).freeEntries = s.mem.freeEntries := rfl
      have hnum : ((s.mem.saw [pagina]).set pagina .freepage).numPages = s.mem.numPages := rfl
      have hword : (s.release pagina).mem.freePages.toNat =
          (s.mem.freePages.toNat + 1) % 2 ^ 32 := BitVec.toNat_add ..
      have hgoal : (s.release pagina).mem.freeEntries =
        ((s.mem.saw [pagina]).set pagina .freepage).freeEntries := rfl
      have hlt := s.mem.numPages.isLt
      rw [hnum] at hbound
      rw [hgoal, hword]
      simp only [Bool.toNat_true, Bool.toNat_false] at hset
      omega
    · exact hinv.once.erase pagina
    · exact fun i hi => hinv.returned i (List.mem_of_mem_erase hi)
    · intro j hj
      rcases List.mem_append.mp hj with hnew | hold
      · rw [List.mem_singleton.mp hnew]
        exact hin
      · exact hinv.examined j hold
  · intro i hi
    have hentry : (s.release pagina).mem.pagelist i =
      Function.update s.mem.pagelist pagina .freepage i := rfl
    rw [hentry, System.release, hinv.once.mem_erase_iff]
    by_cases hik : i = pagina
    · subst hik
      simp
    · rw [Function.update_of_ne hik, hinv.kept i hi]
      simp [hik]

theorem State.Stops.firstStop {s : State} {i : Nat} (hi : s.Stops i) {k : Nat}
    (hfirst : FirstStop s k) : k ≤ i := by
  by_contra hlt
  exact hfirst.first i (by omega) hi

theorem Inv.exec {s t : System} {c : Call} (hinv : Inv s) (hok : Allowed s c)
    (h : exec s c = some t) : Inv t := by
  have hwords := s.mem.numPages.isLt
  rcases exec_cases h with ⟨kind, hc, hsearch⟩ | ⟨rfl, hfree, rfl⟩ | ⟨rfl, -, rfl⟩ |
    ⟨pagina, hlive, rfl, rfl⟩
  · obtain ⟨i, hi, hstop⟩ : ∃ i < s.mem.numPages.toNat, s.mem.Stops i := by
      rcases hc with rfl | rfl
      · exact hok
      · exact hok
    rcases hsearch.cases with ⟨k, seen, hfirst, hseen, hresult⟩ | ⟨seen, hnone, -, -⟩
    · have hk : k < s.mem.numPages.toNat := (hstop.firstStop hfirst).trans_lt hi
      have hin : ∀ j ∈ seen, j < s.mem.numPages.toNat :=
        fun j hj => ((hseen j).mp hj).trans_lt hk
      rcases hresult with ⟨hfree, rfl⟩ | ⟨-, rfl⟩
      · exact hinv.take _ hk hfree hsearch.used hin
      · exact hinv.pass true hin
    · exact absurd hstop (hnone i (hi.trans hwords))
  · exact hinv.take _ hok hfree (by decide) fun j hj => List.mem_singleton.mp hj ▸ hok
  · exact hinv.pass _ fun j hj => List.mem_singleton.mp hj ▸ hok
  · exact hinv.release hlive

/-- An index out of range has been examined. -/
def Overran (s : System) : Prop := ∃ i ∈ s.mem.examined, s.mem.numPages.toNat ≤ i

theorem Sound.not_overran {s : System} (hsound : Sound s) : ¬ Overran s :=
  fun ⟨i, hi, hout⟩ => absurd (hsound.examined i hi) (by omega)

/-- What a call examines is added to what was examined before. -/
theorem exec_examined {s t : System} {c : Call} (h : exec s c = some t) :
    t.mem.numPages = s.mem.numPages ∧ ∃ seen, t.mem.examined = seen ++ s.mem.examined := by
  rcases exec_cases h with ⟨kind, -, hsearch⟩ | ⟨-, -, rfl⟩ | ⟨-, -, rfl⟩ | ⟨pagina, -, -, rfl⟩
  · rcases hsearch.cases with ⟨k, seen, -, -, ⟨-, rfl⟩ | ⟨-, rfl⟩⟩ | ⟨seen, -, -, rfl⟩
    · exact ⟨rfl, seen, rfl⟩
    · exact ⟨rfl, seen, rfl⟩
    · exact ⟨rfl, seen, rfl⟩
  · exact ⟨rfl, _, rfl⟩
  · exact ⟨rfl, _, rfl⟩
  · exact ⟨rfl, _, rfl⟩

theorem Overran.exec {s t : System} {c : Call} (hs : Overran s) (h : exec s c = some t) :
    Overran t := by
  obtain ⟨i, hi, hout⟩ := hs
  obtain ⟨hnum, seen, hseen⟩ := exec_examined h
  exact ⟨i, hseen ▸ List.mem_append_right seen hi, hnum ▸ hout⟩

theorem overran_of_not_allowed {s t : System} {c : Call} (hno : ¬ Allowed s c)
    (h : exec s c = some t) : Overran t := by
  have hwords := s.mem.numPages.isLt
  rcases exec_cases h with ⟨kind, hc, hsearch⟩ | ⟨rfl, -, rfl⟩ | ⟨rfl, -, rfl⟩ |
    ⟨pagina, -, rfl, -⟩
  · have hnone : ∀ i < s.mem.numPages.toNat, ¬ s.mem.Stops i := by
      intro i hi hstop
      rcases hc with rfl | rfl
      · exact hno ⟨i, hi, hstop⟩
      · exact hno ⟨i, hi, hstop⟩
    rcases hsearch.cases with ⟨k, seen, hfirst, hseen, hresult⟩ | ⟨seen, -, hseen, rfl⟩
    · have hout : s.mem.numPages.toNat ≤ k := by
        by_contra hlt
        exact hnone k (by omega) hfirst.stops
      have hmem : s.mem.numPages.toNat ∈ seen := (hseen _).mpr hout
      rcases hresult with ⟨-, rfl⟩ | ⟨-, rfl⟩
      · exact ⟨_, List.mem_append_left _ hmem, le_refl _⟩
      · exact ⟨_, List.mem_append_left _ hmem, le_refl _⟩
    · exact ⟨_, List.mem_append_left _ ((hseen _).mpr hwords), le_refl _⟩
  · exact ⟨_, List.mem_cons_self, not_lt.mp hno⟩
  · exact ⟨_, List.mem_cons_self, not_lt.mp hno⟩
  · exact absurd trivial hno

theorem boot_inv (memorySize : Dword) (stray : Nat → PageKind) : Inv (boot memorySize stray) := by
  have hentry : ∀ i < (boot memorySize stray).mem.numPages.toNat,
      (boot memorySize stray).mem.pagelist i = .freepage := fun i hi => if_pos hi
  constructor
  · refine ⟨?_, List.nodup_nil, fun i hi => absurd hi List.not_mem_nil,
      fun i hi => List.mem_range.mp hi⟩
    have hall : (boot memorySize stray).mem.freeEntries =
        (boot memorySize stray).mem.numPages.toNat := by
      have hfilter (i : Fin (boot memorySize stray).mem.numPages.toNat) (_ : i ∈ Finset.univ) :
          ((boot memorySize stray).mem.pagelist i == PageKind.freepage) = true :=
        beq_iff_eq.mpr (hentry i i.isLt)
      unfold State.freeEntries tally
      rw [Finset.filter_true_of_mem hfilter, Finset.card_univ, Fintype.card_fin]
    exact hall.symm
  · intro i hi
    exact iff_of_false List.not_mem_nil fun hused => hused (hentry i hi)

/-- Whatever the memory size, a run keeps the count of free pages, hands out no page
twice and stays within `pagelist` exactly if all its calls are allowed. -/
theorem allocator_sound_iff {memorySize : Dword} {stray : Nat → PageKind} {cs : List Call}
    {t : System} (h : Run (Computes exec) (boot memorySize stray) cs t) :
    Sound t ↔ Run (Guarded Allowed (Computes exec)) (boot memorySize stray) cs t := by
  have hboot := boot_inv memorySize stray
  have hstep : ∀ s c t, Inv s → Allowed s c → Computes exec s c t → Inv t :=
    fun _ _ _ hs hok hexec => hs.exec hok hexec
  have hbreak : ∀ s c t, Inv s → ¬ Allowed s c → Computes exec s c t → Overran t :=
    fun _ _ _ _ hno hexec => overran_of_not_allowed hno hexec
  have hkeep : ∀ s c t, Overran s → Computes exec s c t → Overran t :=
    fun _ _ _ hs hexec => hs.exec hexec
  have hexact := h.undamaged_iff_guarded (fun _ hs => hs.toSound.not_overran) hstep hbreak
    hkeep hboot
  constructor
  · intro hsound
    exact hexact.mp hsound.not_overran
  · intro hguarded
    exact (hguarded.guarded_invariant hstep hboot).toSound

def threePages : System := boot 0x104000 fun _ => .freepage

def reuse : List Call := [.getpage, .getpagetable, .freepage 0, .getpagedirectory]

def reused : System := (reuse.foldlM exec threePages).getD threePages

/-- In a memory of three pages, a page below a page table is freed and handed out again. -/
theorem allocator_sound_iff_reuse : reused.live = [0, 2] ∧ Sound reused := by
  have hrun : Run (Guarded Allowed (Computes exec)) threePages reuse reused :=
    Run.of_foldlM_checked rfl
  exact ⟨by decide +kernel, (allocator_sound_iff hrun.of_guarded).mpr hrun⟩

/-- A memory with one page, and 0 in the byte behind `pagelist`. -/
def oneByte : System := boot 0x102000 fun _ => .freepage

def overrun : System :=
  (([.getpage, .getpage] : List Call).foldlM exec oneByte).getD oneByte

theorem overrun_run : Run (Computes exec) oneByte [.getpage, .getpage] overrun :=
  Run.of_foldlM rfl

theorem getpage_leaves_pagelist :
    Run (Computes exec) oneByte [.getpage, .getpage] overrun ∧
      overrun.mem.numPages = 1 ∧ overrun.live = [1, 0] ∧ ¬ Sound overrun := by
  have hlive : overrun.live = [1, 0] := by decide +kernel
  have hnum : overrun.mem.numPages = 1 := by decide +kernel
  refine ⟨overrun_run, hnum, hlive, fun hsound => ?_⟩
  have hin := hsound.returned 1 (hlive ▸ List.mem_cons_self)
  rw [hnum] at hin
  exact absurd hin (by decide)

end OsdevArchive.Osso.Memory
