import OsdevArchive.Lib.Texts
import OsdevArchive.Minirighi.Inet

/-!
`inet_aton` (`network/ip.c`), which reads an address in the notation with numbers and dots. The
numbers are read into a 32-bit word, and its bound is all that is checked: a number of any length
passes if what is left of it modulo `2 ^ 32` does.
-/

namespace OsdevArchive.Minirighi.Ip

open OsdevArchive.Lib.Tokens OsdevArchive.Minirighi.Inet

/-- The macro of `ctype.h`, by its table. -/
def isdigit (c : Byte) : Bool := 48 ≤ c.toNat && c.toNat ≤ 57

def isascii (c : Byte) : Bool := c.toNat ≤ 0x7f

/-- Tab, line feed, vertical tab, form feed, carriage return, space and the hard space. -/
def isspace (c : Byte) : Bool := 9 ≤ c.toNat && c.toNat ≤ 13 || c.toNat = 32 || c.toNat = 160

/-- The character `.`. -/
def dot : Byte := 46

/-- `*cp`, with the `'\0'` that ends a string. -/
def char (cp : List Byte) : Byte := cp.headD 0

/-- The inner loop: `val`, `digit` and what is left of the string. -/
def collect (val : BitVec 32) (digit : Bool) : List Byte → BitVec 32 × Bool × List Byte
  | [] => (val, digit, [])
  | c :: cp =>
    if isdigit c then collect (val * 10 + (c.setWidth 32 - 48)) true cp else (val, digit, c :: cp)

/-- The variables of `inet_aton` behind its loop. -/
structure Parsed where
  val : BitVec 32
  digit : Bool
  cp : List Byte
  bytes : Mem
  pp : Nat

/-- The outer loop; `left` is how many more dots there may be. `none` is `ret_0`. -/
def inetLoop : Nat → List Byte → Mem → Option Parsed
  | left, cp, bytes =>
    if !isdigit (char cp) then none
    else
      let (val, digit, cp) := collect 0 false cp
      if char cp = dot then
        match left with
        | 0 => none
        | left + 1 =>
          if val.toNat > 0xff then none
          else inetLoop left cp.tail (store bytes (2 - left) [val.setWidth 8])
      else some ⟨val, digit, cp, bytes, 3 - left⟩

/-- `max`. -/
def maxPart : Nat → BitVec 32
  | 0 => 0xFFFFFFFF
  | 1 => 0xFFFFFF
  | 2 => 0xFFFF
  | _ => 0xFF

/-- `inet_aton`: what it returns, and `*inp` unless `inp` is null. -/
def inetAton (cp : List Byte) (inp : Option (BitVec 32)) : Bool × Option (BitVec 32) :=
  match inetLoop 3 cp fun _ => 0 with
  | none => (false, inp)
  | some p =>
    if char p.cp ≠ 0 ∧ (!isascii (char p.cp) ∨ !isspace (char p.cp)) then (false, inp)
    else if !p.digit then (false, inp)
    else if p.val > maxPart p.pp then (false, inp)
    else (true, inp.map fun _ => loadLong p.bytes 0 ||| ntohl p.val)

/-! ## The notation -/

/-- The number that digits stand for. -/
def value (d : List Byte) : Nat := d.foldl (fun n c => n * 10 + (c.toNat - 48)) 0

/-- The text ends there, or with white space and anything. -/
def Ends (rest : List Byte) : Prop :=
  char rest = 0 ∨ isascii (char rest) = true ∧ isspace (char rest) = true

instance Ends.instDecidable (rest : List Byte) : Decidable (Ends rest) :=
  inferInstanceAs (Decidable (_ ∨ _))

/-- The string is these numbers, up to four of them, with dots between them. -/
def Reads (cp : List Byte) (ns : List Nat) : Prop :=
  ∃ ds rest, Separated isdigit dot cp ds rest ∧ Ends rest ∧ ds.length ≤ 4 ∧ ns = ds.map value

/-- The numbers before the last stand for a byte each, the last for all bytes that are left. -/
def Within (ns : List Nat) : Prop :=
  (∀ n ∈ ns.dropLast, n ≤ 255) ∧ ns.getLastD 0 < 256 ^ (5 - ns.length)

instance Within.instDecidable (ns : List Nat) : Decidable (Within ns) :=
  inferInstanceAs (Decidable (_ ∧ _))

/-- The numbers as an address, the highest byte first. -/
def hostOrder : Nat → List Nat → Nat
  | _, [] => 0
  | _, [n] => n
  | w, n :: ns => n * 256 ^ w + hostOrder (w - 1) ns

/-- The address in network order. -/
def address (ns : List Nat) : BitVec 32 := ntohl (BitVec.ofNat 32 (hostOrder 3 ns))

/-- The notation is accepted and stands for its address, and nothing else is accepted. -/
structure Converts (cp : List Byte) : Prop where
  accepts : ∀ ns inp, Reads cp ns → Within ns →
    inetAton cp inp = (true, inp.map fun _ => address ns)
  rejects : ∀ inp, (∀ ns, Reads cp ns → ¬Within ns) → inetAton cp inp = (false, inp)

/-- A number that passes modulo `2 ^ 32` is a 32-bit number. -/
def Undisguised (cp : List Byte) : Prop :=
  ∀ ns, Reads cp ns → Within (ns.map (· % 2 ^ 32)) → ∀ n ∈ ns, n < 2 ^ 32

variable {cp d rest : List Byte} {ds : List (List Byte)} {ns : List Nat} {bytes : Mem}
  {val : BitVec 32} {digit : Bool} {inp : Option (BitVec 32)}

/-! ## One number -/

/-- The number that the code reads. -/
def word (d : List Byte) : BitVec 32 := d.foldl (fun val c => val * 10 + (c.setWidth 32 - 48)) 0

theorem collect_eq (cp : List Byte) : collect val digit cp =
    ((cp.takeWhile isdigit).foldl (fun val c => val * 10 + (c.setWidth 32 - 48)) val,
      digit || !(cp.takeWhile isdigit).isEmpty, cp.dropWhile isdigit) := by
  induction cp generalizing val digit with
  | nil => simp [collect]
  | cons c cp ih =>
    rw [collect]
    split
    · rename_i hc
      rw [ih, List.takeWhile_cons_of_pos hc, List.dropWhile_cons_of_pos hc]
      simp
    · rename_i hc
      rw [List.takeWhile_cons_of_neg hc, List.dropWhile_cons_of_neg hc]
      simp

/-- It is the number that stands there, modulo `2 ^ 32`. -/
theorem toNat_word (hd : ∀ c ∈ d, isdigit c = true) : (word d).toNat = value d % 2 ^ 32 := by
  have hfold : ∀ (d : List Byte) (val : BitVec 32) (n : Nat), (∀ c ∈ d, isdigit c = true) →
      val.toNat = n % 2 ^ 32 →
      (d.foldl (fun val c => val * 10 + (c.setWidth 32 - 48)) val).toNat =
        d.foldl (fun n c => n * 10 + (c.toNat - 48)) n % 2 ^ 32 := by
    intro d
    induction d with
    | nil => exact fun _ _ _ h => h
    | cons c d ih =>
      intro val n hd h
      obtain ⟨hc, hd⟩ := List.forall_mem_cons.mp hd
      apply ih _ _ hd
      unfold isdigit at hc
      simp only [Bool.and_eq_true, decide_eq_true_eq] at hc
      dsimp only
      have hten : (10 : BitVec 32).toNat = 10 := rfl
      have hzero : (48 : BitVec 32).toNat = 48 := rfl
      rw [BitVec.toNat_add, BitVec.toNat_mul, BitVec.toNat_sub, BitVec.toNat_setWidth, h, hten,
        hzero]
      omega
  exact hfold d 0 0 hd rfl

theorem isdigit_dot : isdigit dot = false := by decide

theorem isToken_takeWhile : IsToken isdigit (cp.takeWhile isdigit) ↔ isdigit (char cp) = true := by
  have hall : ∀ c ∈ cp.takeWhile isdigit, isdigit c = true := List.all_eq_true.mp List.all_takeWhile
  unfold IsToken
  rw [and_iff_left hall]
  cases cp with
  | nil => simp [char, isdigit]
  | cons c cp =>
    by_cases hc : isdigit c = true
    · simp [char, hc]
    · simp [char, hc]

theorem store_ofBytes (init : List Byte) (b : Byte) :
    store (ofBytes init) init.length [b] = ofBytes (init ++ [b]) := by
  funext i
  unfold store ofBytes
  rcases Nat.lt_trichotomy i init.length with hlt | rfl | hgt
  · rw [if_neg (by omega)]
    simp [List.getElem?_append_left hlt]
  · simp
  · have hlen : 1 ≤ i - init.length := by omega
    rw [if_pos (by omega)]
    simp [List.getElem?_append_right (Nat.le_of_lt hgt), List.getElem?_eq_none, hlen,
      Nat.le_of_lt hgt]

/-! ## The numbers -/

/-- The variables behind the loop, for these tokens. -/
def parsed (init : List Byte) (ds : List (List Byte)) (rest : List Byte) : Parsed where
  val := word (ds.getLastD [])
  digit := true
  cp := rest
  bytes := ofBytes (init ++ ds.dropLast.map fun d => (word d).setWidth 8)
  pp := init.length + (ds.length - 1)

theorem char_ne_dot : char rest ≠ dot ↔ ∀ c ∈ rest.head?, c ≠ dot := by
  cases rest with
  | nil => simp [char, dot]
  | cons c rest => simp [char]

theorem parsed_cons {init : List Byte} (hds : ds ≠ []) :
    parsed init (d :: ds) rest = parsed (init ++ [(word d).setWidth 8]) ds rest := by
  obtain ⟨e, ds, rfl⟩ := List.exists_cons_of_ne_nil hds
  simp [parsed]
  omega

theorem separated_digit (h : Separated isdigit dot cp ds rest) : isdigit (char cp) = true :=
  isToken_takeWhile.mp ((separated_iff isdigit_dot).mp h).1

theorem separated_last (hd : isdigit (char cp) = true) (hdot : char (cp.dropWhile isdigit) ≠ dot) :
    Separated isdigit dot cp ds rest ↔
      ds = [cp.takeWhile isdigit] ∧ rest = cp.dropWhile isdigit := by
  rw [separated_iff isdigit_dot, and_iff_right (isToken_takeWhile.mpr hd)]
  constructor
  · rintro (⟨rfl, rfl, -⟩ | ⟨cp', ds', -, hdrop, -⟩)
    · exact ⟨rfl, rfl⟩
    · rw [hdrop] at hdot
      exact absurd rfl hdot
  · rintro ⟨rfl, rfl⟩
    exact Or.inl ⟨rfl, rfl, char_ne_dot.mp hdot⟩

theorem separated_dot {cp' : List Byte} (hd : isdigit (char cp) = true)
    (hdrop : cp.dropWhile isdigit = dot :: cp') :
    Separated isdigit dot cp ds rest ↔
      ∃ ds', ds = cp.takeWhile isdigit :: ds' ∧ Separated isdigit dot cp' ds' rest := by
  rw [separated_iff isdigit_dot, and_iff_right (isToken_takeWhile.mpr hd)]
  constructor
  · rintro (⟨-, rfl, hne⟩ | ⟨tail, ds', rfl, htail, hread⟩)
    · rw [hdrop] at hne
      exact absurd rfl (hne dot rfl)
    · obtain rfl := (List.cons.inj (hdrop.symm.trans htail)).2
      exact ⟨ds', rfl, hread⟩
  · rintro ⟨ds', rfl, hread⟩
    exact Or.inr ⟨cp', ds', rfl, hdrop, hread⟩

theorem inetLoop_last {left : Nat} (hd : isdigit (char cp) = true)
    (hdot : char (cp.dropWhile isdigit) ≠ dot) : inetLoop left cp bytes =
      some ⟨word (cp.takeWhile isdigit), true, cp.dropWhile isdigit, bytes, 3 - left⟩ := by
  have hne := (isToken_takeWhile.mpr hd).1
  rw [inetLoop, if_neg (by rw [hd]; decide), collect_eq]
  dsimp only
  rw [if_neg hdot, List.isEmpty_eq_false_iff.mpr hne]
  rfl

theorem inetLoop_zero {cp' : List Byte} (hd : isdigit (char cp) = true)
    (hdrop : cp.dropWhile isdigit = dot :: cp') : inetLoop 0 cp bytes = none := by
  rw [inetLoop, if_neg (by rw [hd]; decide), collect_eq]
  dsimp only
  exact if_pos (by rw [hdrop]; rfl)

theorem inetLoop_succ {left : Nat} {cp' : List Byte} (hd : isdigit (char cp) = true)
    (hdrop : cp.dropWhile isdigit = dot :: cp') : inetLoop (left + 1) cp bytes =
      if (word (cp.takeWhile isdigit)).toNat > 0xff then none
      else inetLoop left cp'
        (store bytes (2 - left) [(word (cp.takeWhile isdigit)).setWidth 8]) := by
  rw [inetLoop, if_neg (by rw [hd]; decide), collect_eq, hdrop]
  dsimp only
  exact if_pos rfl

/-- What the loop finds in a text: the numbers that dots separate, as long as no number but the
last exceeds a byte. -/
def Found (left : Nat) (init cp : List Byte) (p : Parsed) : Prop :=
  ∃ ds rest, Separated isdigit dot cp ds rest ∧ ds.length ≤ left + 1 ∧
    (∀ d ∈ ds.dropLast, (word d).toNat ≤ 255) ∧ p = parsed init ds rest

variable {left : Nat} {init : List Byte} {p : Parsed}

theorem found_last (hd : isdigit (char cp) = true) (hdot : char (cp.dropWhile isdigit) ≠ dot) :
    Found left init cp p ↔ p = parsed init [cp.takeWhile isdigit] (cp.dropWhile isdigit) := by
  constructor
  · rintro ⟨ds, rest, hread, -, -, rfl⟩
    obtain ⟨rfl, rfl⟩ := (separated_last hd hdot).mp hread
    rfl
  · rintro rfl
    refine ⟨_, _, (separated_last hd hdot).mpr ⟨rfl, rfl⟩, Nat.le_add_left 1 left, ?_, rfl⟩
    intro d hd
    cases hd

theorem found_zero {cp' : List Byte} (hd : isdigit (char cp) = true)
    (hdrop : cp.dropWhile isdigit = dot :: cp') : ¬Found 0 init cp p := by
  rintro ⟨ds, rest, hread, hlen, -, -⟩
  obtain ⟨ds', rfl, htail⟩ := (separated_dot hd hdrop).mp hread
  have hpos := List.length_pos_of_ne_nil htail.ne_nil
  rw [List.length_cons] at hlen
  omega

theorem found_succ {cp' : List Byte} (hd : isdigit (char cp) = true)
    (hdrop : cp.dropWhile isdigit = dot :: cp') : Found (left + 1) init cp p ↔
      (word (cp.takeWhile isdigit)).toNat ≤ 255 ∧
        Found left (init ++ [(word (cp.takeWhile isdigit)).setWidth 8]) cp' p := by
  constructor
  · rintro ⟨ds, rest, hread, hlen, hsmall, rfl⟩
    obtain ⟨ds', rfl, htail⟩ := (separated_dot hd hdrop).mp hread
    rw [List.dropLast_cons_of_ne_nil htail.ne_nil] at hsmall
    obtain ⟨hfirst, hrest⟩ := List.forall_mem_cons.mp hsmall
    exact ⟨hfirst, ds', rest, htail, Nat.le_of_succ_le_succ hlen, hrest, parsed_cons htail.ne_nil⟩
  · rintro ⟨hfirst, ds', rest, htail, hlen, hrest, rfl⟩
    refine ⟨_, rest, (separated_dot hd hdrop).mpr ⟨ds', rfl, htail⟩, Nat.succ_le_succ hlen, ?_,
      (parsed_cons htail.ne_nil).symm⟩
    rw [List.dropLast_cons_of_ne_nil htail.ne_nil]
    exact List.forall_mem_cons.mpr ⟨hfirst, hrest⟩

/-- The loop and what it finds agree where it does not go on. -/
theorem inetLoop_iff_step (hleft : init.length + left = 3)
    (hstep : ∀ cp', isdigit (char cp) = true → cp.dropWhile isdigit = dot :: cp' →
      (inetLoop left cp (ofBytes init) = some p ↔ Found left init cp p)) :
    inetLoop left cp (ofBytes init) = some p ↔ Found left init cp p := by
  by_cases hd : isdigit (char cp) = true
  · by_cases hdot : char (cp.dropWhile isdigit) = dot
    · cases hdrop : cp.dropWhile isdigit with
      | nil =>
        rw [hdrop] at hdot
        exact absurd hdot (by decide)
      | cons c cp' =>
        rw [hdrop] at hdot
        obtain rfl : c = dot := hdot
        exact hstep cp' hd hdrop
    · have hpp : 3 - left = init.length := by omega
      have hparsed : parsed init [cp.takeWhile isdigit] (cp.dropWhile isdigit) =
          ⟨word (cp.takeWhile isdigit), true, cp.dropWhile isdigit, ofBytes init, 3 - left⟩ := by
        rw [hpp]
        simp [parsed]
      rw [inetLoop_last hd hdot, found_last hd hdot, hparsed, Option.some_inj, eq_comm]
  · have hnone : inetLoop left cp (ofBytes init) = none := by
      rw [inetLoop, if_pos (by simpa using hd)]
    rw [hnone]
    constructor
    · intro h
      cases h
    · rintro ⟨ds, rest, hread, -⟩
      exact absurd (separated_digit hread) hd

theorem inetLoop_iff (hleft : init.length + left = 3) :
    inetLoop left cp (ofBytes init) = some p ↔ Found left init cp p := by
  induction left generalizing cp init with
  | zero =>
    apply inetLoop_iff_step hleft
    intro cp' hd hdrop
    rw [inetLoop_zero hd hdrop]
    constructor
    · intro h
      cases h
    · intro h
      exact absurd h (found_zero hd hdrop)
  | succ left ih =>
    apply inetLoop_iff_step hleft
    intro cp' hd hdrop
    have hpp : 2 - left = init.length := by omega
    rw [inetLoop_succ hd hdrop, found_succ hd hdrop, hpp, store_ofBytes]
    split
    · rename_i hbig
      constructor
      · intro h
        cases h
      · intro h
        exact absurd h.1 (Nat.not_le.mpr hbig)
    · rename_i hsmall
      rw [and_iff_right (Nat.not_lt.mp hsmall)]
      apply ih
      rw [List.length_append, List.length_singleton]
      omega

/-! ## The address -/

theorem ntohl_append (a b c d : Byte) :
    ntohl (a ++ b ++ c ++ d : BitVec 32) = (d ++ c ++ b ++ a : BitVec 32) := by
  unfold ntohl
  apply BitVec.eq_of_getLsbD_eq
  intro i hi
  simp only [BitVec.getLsbD_or, BitVec.getLsbD_and, BitVec.getLsbD_ushiftRight,
    BitVec.getLsbD_shiftLeft, BitVec.getLsbD_append]
  interval_cases i <;> simp [-BitVec.getLsbD_eq_getElem]

theorem toNat_append (a b c d : Byte) : (a ++ b ++ c ++ d : BitVec 32).toNat =
    a.toNat * 2 ^ 24 + b.toNat * 2 ^ 16 + c.toNat * 2 ^ 8 + d.toNat := by
  rw [BitVec.toNat_append, BitVec.toNat_append, BitVec.toNat_append,
    ← Nat.shiftLeft_add_eq_or_of_lt b.isLt, ← Nat.shiftLeft_add_eq_or_of_lt c.isLt,
    ← Nat.shiftLeft_add_eq_or_of_lt d.isLt]
  simp only [Nat.shiftLeft_eq]
  omega

theorem loadLong_append (m : Mem) : loadLong m 0 = (m 3 ++ m 2 ++ m 1 ++ m 0 : BitVec 32) := by
  have h₀ := (m 0).isLt
  have h₁ := (m 1).isLt
  have h₂ := (m 2).isLt
  have h₃ := (m 3).isLt
  apply BitVec.eq_of_toNat_eq
  rw [toNat_append, loadLong, BitVec.toNat_ofNat, loadWord, loadWord]
  simp only [Nat.zero_add, Nat.reduceAdd]
  omega

/-- The four bytes of a word. -/
theorem exists_append (n : Nat) : ∃ a b c d : Byte,
    BitVec.ofNat 32 n = (a ++ b ++ c ++ d : BitVec 32) ∧ a.toNat = n / 2 ^ 24 % 256 ∧
      b.toNat = n / 2 ^ 16 % 256 ∧ c.toNat = n / 2 ^ 8 % 256 ∧ d.toNat = n % 256 := by
  refine ⟨BitVec.ofNat 8 (n / 2 ^ 24), BitVec.ofNat 8 (n / 2 ^ 16), BitVec.ofNat 8 (n / 2 ^ 8),
    BitVec.ofNat 8 n, ?_, BitVec.toNat_ofNat .., BitVec.toNat_ofNat .., BitVec.toNat_ofNat ..,
    BitVec.toNat_ofNat ..⟩
  apply BitVec.eq_of_toNat_eq
  rw [toNat_append]
  simp only [BitVec.toNat_ofNat]
  omega

/-- The bytes that the loop stored and those of the last number. -/
theorem loadLong_or_ntohl (m : Mem) (a b c d : Byte) :
    loadLong m 0 ||| ntohl (a ++ b ++ c ++ d : BitVec 32) =
      ntohl ((m 0 ||| a) ++ (m 1 ||| b) ++ (m 2 ||| c) ++ (m 3 ||| d) : BitVec 32) := by
  rw [loadLong_append, ntohl_append, ntohl_append, BitVec.or_append, BitVec.or_append,
    BitVec.or_append]

theorem eq_zero_of_toNat {b : Byte} (h : b.toNat = 0) : b = 0#8 := BitVec.eq_of_toNat_eq h

/-- A number that fits into the bytes behind the stored ones is put there. -/
theorem address_eq (hlen : init.length ≤ 3) (hval : val.toNat < 256 ^ (4 - init.length)) :
    loadLong (ofBytes init) 0 ||| ntohl val =
      address (init.map BitVec.toNat ++ [val.toNat]) := by
  obtain ⟨a, b, c, d, hbytes, ha, hb, hc, hd⟩ := exists_append val.toNat
  have hlt := val.isLt
  rw [BitVec.ofNat_toNat, BitVec.setWidth_eq] at hbytes
  rw [hbytes, loadLong_or_ntohl, ← hbytes]
  apply congrArg ntohl
  apply BitVec.eq_of_toNat_eq
  rw [toNat_append, BitVec.toNat_ofNat]
  rcases init with _ | ⟨x, init⟩
  · simp [ofBytes, hostOrder]
    omega
  have hx := x.isLt
  rcases init with _ | ⟨y, init⟩
  · have hval : val.toNat < 2 ^ 24 := hval
    obtain rfl : a = 0#8 := eq_zero_of_toNat (by omega)
    simp [ofBytes, hostOrder]
    omega
  have hy := y.isLt
  rcases init with _ | ⟨z, init⟩
  · have hval : val.toNat < 2 ^ 16 := hval
    obtain rfl : a = 0#8 := eq_zero_of_toNat (by omega)
    obtain rfl : b = 0#8 := eq_zero_of_toNat (by omega)
    simp [ofBytes, hostOrder]
    omega
  have hz := z.isLt
  rcases init with _ | ⟨u, init⟩
  · have hval : val.toNat < 2 ^ 8 := hval
    obtain rfl : a = 0#8 := eq_zero_of_toNat (by omega)
    obtain rfl : b = 0#8 := eq_zero_of_toNat (by omega)
    obtain rfl : c = 0#8 := eq_zero_of_toNat (by omega)
    simp [ofBytes, hostOrder]
    omega
  · simp only [List.length_cons] at hlen
    omega

/-! ## The whole function -/

/-- What the numbers of a text are to the code. -/
theorem map_word (h : Separated isdigit dot cp ds rest) :
    ds.map (fun d => (word d).toNat) = (ds.map value).map (· % 2 ^ 32) := by
  rw [List.map_map]
  apply List.map_congr_left
  intro d hd
  exact toNat_word (h.isToken d hd).2

theorem not_gt_maxPart {n : Nat} (hlen : n ≤ 4) (hpos : 0 < n) :
    ¬val > maxPart (n - 1) ↔ val.toNat < 256 ^ (5 - n) := by
  have hlt := val.isLt
  rw [gt_iff_lt, BitVec.lt_def, Nat.not_lt]
  interval_cases n <;> simp [maxPart] <;> omega

theorem within_map_word (hds : ds ≠ []) : Within (ds.map fun d => (word d).toNat) ↔
    (∀ d ∈ ds.dropLast, (word d).toNat ≤ 255) ∧
      (word (ds.getLastD [])).toNat < 256 ^ (5 - ds.length) := by
  obtain ⟨front, last, rfl⟩ : ∃ front last, ds = front ++ [last] :=
    ⟨_, _, (List.dropLast_append_getLast hds).symm⟩
  simp [Within]

theorem inetAton_of_found (h : Found 3 [] cp p) : inetAton cp inp =
    if Ends p.cp ∧ ¬p.val > maxPart p.pp then
      (true, inp.map fun _ => loadLong p.bytes 0 ||| ntohl p.val)
    else (false, inp) := by
  have hloop : inetLoop 3 cp (fun _ => 0) = some p := (inetLoop_iff rfl).mpr h
  have hdigit : p.digit = true := by
    obtain ⟨ds, rest, -, -, -, rfl⟩ := h
    rfl
  have hends : (char p.cp ≠ 0 ∧ (!isascii (char p.cp) ∨ !isspace (char p.cp))) ↔
      ¬Ends p.cp := by
    unfold Ends
    simp only [Bool.not_eq_true', not_or, not_and_or, Bool.not_eq_true]
  rw [inetAton, hloop]
  dsimp only
  rw [hdigit]
  by_cases hrest : Ends p.cp
  · rw [if_neg fun hbad => hends.mp hbad hrest, if_neg (by decide)]
    by_cases hval : p.val > maxPart p.pp
    · rw [if_pos hval, if_neg fun hboth => hboth.2 hval]
    · rw [if_neg hval, if_pos ⟨hrest, hval⟩]
  · rw [if_pos (hends.mpr hrest), if_neg fun hboth => hrest hboth.1]

theorem inetAton_of_not_found (h : ∀ p, ¬Found 3 [] cp p) : inetAton cp inp = (false, inp) := by
  have hloop : inetLoop 3 cp (fun _ => 0) = none := by
    apply Option.eq_none_iff_forall_ne_some.mpr
    intro p hp
    exact h p ((inetLoop_iff rfl).mp hp)
  rw [inetAton, hloop]

theorem address_parsed (hds : ds ≠ []) (hlen : ds.length ≤ 4)
    (hsmall : ∀ d ∈ ds.dropLast, (word d).toNat ≤ 255)
    (hlast : (word (ds.getLastD [])).toNat < 256 ^ (5 - ds.length)) :
    loadLong (parsed [] ds rest).bytes 0 ||| ntohl (parsed [] ds rest).val =
      address (ds.map fun d => (word d).toNat) := by
  obtain ⟨front, last, rfl⟩ : ∃ front last, ds = front ++ [last] :=
    ⟨_, _, (List.dropLast_append_getLast hds).symm⟩
  rw [List.length_append, List.length_singleton] at hlen hlast
  rw [List.dropLast_concat] at hsmall
  rw [List.getLastD_concat] at hlast
  have hbytes : (front.map fun d => (word d).setWidth 8).map BitVec.toNat =
      front.map fun d => (word d).toNat := by
    rw [List.map_map]
    apply List.map_congr_left
    intro d hd
    have hle := hsmall d hd
    change ((word d).setWidth 8).toNat = (word d).toNat
    rw [BitVec.toNat_setWidth]
    omega
  have hfits : (word last).toNat <
      256 ^ (4 - (front.map fun d => (word d).setWidth 8 : List Byte).length) := by
    rw [List.length_map]
    convert hlast using 2
    omega
  have haddress := address_eq (by rw [List.length_map]; omega) hfits
  rw [hbytes] at haddress
  simpa [parsed] using haddress

/-- What is read and passes modulo `2 ^ 32` is accepted. -/
theorem inetAton_of_reads (h : Reads cp ns) (hwithin : Within (ns.map (· % 2 ^ 32))) :
    inetAton cp inp = (true, inp.map fun _ => address (ns.map (· % 2 ^ 32))) := by
  obtain ⟨ds, rest, hread, hends, hlen, rfl⟩ := h
  have hpos := List.length_pos_of_ne_nil hread.ne_nil
  rw [← map_word hread] at hwithin ⊢
  obtain ⟨hsmall, hlast⟩ := (within_map_word hread.ne_nil).mp hwithin
  rw [inetAton_of_found ⟨ds, rest, hread, hlen, hsmall, rfl⟩, if_pos]
  · rw [address_parsed hread.ne_nil hlen hsmall hlast]
  · refine ⟨hends, ?_⟩
    dsimp only [parsed]
    rw [List.length_nil, Nat.zero_add]
    exact (not_gt_maxPart hlen hpos).mpr hlast

/-- Nothing else is. -/
theorem inetAton_rejects (h : ∀ ns, Reads cp ns → ¬Within (ns.map (· % 2 ^ 32))) :
    inetAton cp inp = (false, inp) := by
  by_cases hfound : ∃ p, Found 3 [] cp p
  · obtain ⟨p, ds, rest, hread, hlen, hsmall, rfl⟩ := hfound
    rw [inetAton_of_found ⟨ds, rest, hread, hlen, hsmall, rfl⟩, if_neg]
    rintro ⟨hends, hval⟩
    dsimp only [parsed] at hends hval
    rw [List.length_nil, Nat.zero_add] at hval
    have hpos := List.length_pos_of_ne_nil hread.ne_nil
    have hlast := (not_gt_maxPart hlen hpos).mp hval
    apply h _ ⟨ds, rest, hread, hends, hlen, rfl⟩
    rw [← map_word hread]
    exact (within_map_word hread.ne_nil).mpr ⟨hsmall, hlast⟩
  · exact inetAton_of_not_found (not_exists.mp hfound)

theorem Reads.unique {ns' : List Nat} (h : Reads cp ns) (h' : Reads cp ns') : ns = ns' := by
  obtain ⟨ds, rest, hread, -, -, rfl⟩ := h
  obtain ⟨ds', rest', hread', -, -, rfl⟩ := h'
  obtain ⟨rfl, -⟩ := hread.unique isdigit_dot hread'
  rfl

theorem Within.lt (h : Within ns) : ∀ n ∈ ns, n < 2 ^ 32 := by
  intro n hn
  have hne : ns ≠ [] := List.ne_nil_of_mem hn
  obtain ⟨front, last, rfl⟩ : ∃ front last, ns = front ++ [last] :=
    ⟨_, _, (List.dropLast_append_getLast hne).symm⟩
  obtain ⟨hsmall, hlast⟩ := h
  rw [List.dropLast_concat] at hsmall
  rw [List.getLastD_concat] at hlast
  rcases List.mem_append.mp hn with hn | hn
  · have hle := hsmall n hn
    omega
  · rw [List.mem_singleton.mp hn]
    have hpow : 256 ^ (5 - (front ++ [last]).length) ≤ 256 ^ 4 := by
      apply Nat.pow_le_pow_right (by decide)
      rw [List.length_append, List.length_singleton]
      omega
    omega

theorem map_mod_eq (h : ∀ n ∈ ns, n < 2 ^ 32) : ns.map (· % 2 ^ 32) = ns := by
  have hsame : ns.map (· % 2 ^ 32) = ns.map id :=
    List.map_congr_left fun n hn => Nat.mod_eq_of_lt (h n hn)
  rw [hsame, List.map_id]

theorem undisguised_of_converts (h : Converts cp) : Undisguised cp := by
  intro ns hread hwithin
  by_cases hsome : ∃ ns', Reads cp ns' ∧ Within ns'
  · obtain ⟨ns', hread', hwithin'⟩ := hsome
    obtain rfl := hread.unique hread'
    exact hwithin'.lt
  · have hfalse := h.rejects none fun ns' hread' hwithin' => hsome ⟨ns', hread', hwithin'⟩
    rw [inetAton_of_reads hread hwithin] at hfalse
    cases congrArg Prod.fst hfalse

theorem converts_of_undisguised (h : Undisguised cp) : Converts cp where
  accepts ns inp hread hwithin := by
    have hsame := map_mod_eq hwithin.lt
    have haton : inetAton cp inp = (true, inp.map fun _ => address (ns.map (· % 2 ^ 32))) :=
      inetAton_of_reads hread (by rwa [hsame])
    rwa [hsame] at haton
  rejects inp hnone := by
    apply inetAton_rejects
    intro ns hread hwithin
    have hsame := map_mod_eq (h ns hread hwithin)
    rw [hsame] at hwithin
    exact hnone ns hread hwithin

/-- `inet_aton` accepts the notation and nothing else exactly for the texts in which no number
from `2 ^ 32` on passes modulo `2 ^ 32`. -/
theorem converts_iff (cp : List Byte) : Converts cp ↔ Undisguised cp :=
  ⟨undisguised_of_converts, converts_of_undisguised⟩

/-- The text "4294967297". -/
def overflowing : List Byte := [52, 50, 57, 52, 57, 54, 55, 50, 57, 55]

/-- It is accepted as the address 0.0.0.1. -/
theorem overflowing_accepted : ¬Converts overflowing := by
  intro h
  have hread : Reads overflowing [4294967297] := by
    have hlast : Separated isdigit dot (overflowing ++ []) [overflowing] [] := by
      apply Separated.last
      · exact ⟨by decide, by decide⟩
      · intro a ha
        cases ha
      · intro a ha
        cases ha
    exact ⟨[overflowing], [], hlast, Or.inl rfl, by decide, rfl⟩
  have hlt := undisguised_of_converts h _ hread (by decide) _ (List.mem_singleton_self _)
  exact absurd hlt (by decide)

end OsdevArchive.Minirighi.Ip
