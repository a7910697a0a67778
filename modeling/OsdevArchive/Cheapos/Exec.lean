import OsdevArchive.Cheapos.Mem
import OsdevArchive.Cheapos.Sessions
import Mathlib.Algebra.Order.BigOperators.Group.List

/-!
`syscall_exec` of cheapos (`syscall_task.c`) for a file of a FAT12 volume. The session, the
buffer of the copying loop and the block of the new task are separate objects; the places in
the block are counted from its base.
-/

namespace OsdevArchive.Cheapos.Exec

open OsdevArchive.Cheapos.MemCopy OsdevArchive.Cheapos.Sessions OsdevArchive.Lib.Cursor

/-- `FAT12_IMG_SIZE`. -/
def fat12ImgSize : Word := 128 * 1024

/-- `USTACKSIZE`. -/
def ustackSize : Int := 30 * 1024

/-- `KSTACKSIZE`. -/
def kstackSize : Int := 30 * 1024

/-- `CODEPIUSIZE`. -/
def codepiuSize : Int := 8 * 1024

/-- `TASK_MAXARGNUM`. -/
def taskMaxArgNum : Nat := 5

/-- The end of `fat12_open` for a file: its length in the directory entry and its bytes, if
they can be read. -/
def fat12Open (fileLenght : Word) (image : Option (Int → BitVec 8)) : Option Fat12Session :=
  if fat12ImgSize < fileLenght then none
  else image.map fun image =>
    { directory := 0, size := fileLenght, cursore := 0, image := image }

/-- The variables of the copying loop, the bytes of the block and the places in it that
`mem_copy` writes. -/
structure Copia where
  sessione : Fat12Session
  buffer : Int → BitVec 8
  i : Nat
  blocco : Int → BitVec 8
  copiati : List Int

/-- The characters that were read go to the block. -/
def Copia.copia (c : Copia) (r : Esito Fat12Session) : Copia where
  sessione := r.session
  buffer := r.buffer
  i := c.i + r.value.toNat
  blocco := memCopy (fun _ => r.buffer) 0 c.blocco c.i r.value.toNat
  copiati := scritti c.i r.value.toNat ++ c.copiati

/-- The loop; `none` if it does not end in `fuel` turns, or with a read of which nothing is
known. -/
def Copia.loop : Nat → Copia → Option Copia
  | 0, _ => none
  | fuel + 1, c =>
    (c.sessione.fat12Read 20 c.buffer).bind fun r =>
      if 0 < r.value then loop fuel (c.copia r) else some c

/-- `kstrcpy`. -/
def kstrcpy (dest : Int → BitVec 8) (d : Int) (src : List (BitVec 8)) : Int → BitVec 8 :=
  fun o => if d ≤ o ∧ o ≤ d + src.length then src.getD (o - d).toNat 0 else dest o

/-- `task_pusharg`, on the block and `userRegs.esp`. -/
def taskPusharg (p : (Int → BitVec 8) × Int) (arg : List (BitVec 8)) : (Int → BitVec 8) × Int :=
  let esp := p.2 - (arg.length + 1)
  (kstrcpy p.1 (esp + 1) arg, esp)

/-- The arguments go to the user stack, the last one first. -/
def pushArgs (codesize : Int) (argv : List (List (BitVec 8))) (blocco : Int → BitVec 8) :
    Int → BitVec 8 :=
  ((argv.take taskMaxArgNum).reverse.foldl taskPusharg (blocco, codesize + ustackSize)).1

/-- A task that was made: `task_mem`, the tables when its block is allocated and at the end,
and its block. -/
structure Avviato where
  pid : Int
  base : Mem.MemT
  codesize : Int
  allocate : Mem.Tables
  tabelle : Mem.Tables
  blocco : Int → BitVec 8
  copiati : List Int

/-- "Paddo a 1 kB+CODEPIUSIZE". -/
def codesize (size : Int) : Int := size + (1024 - size % 1024) + codepiuSize

/-- `syscall_exec` behind the open, for a session at `puntatore`; `pid` is the next pid of
`Qnotask` and `argv` holds the strings at `argv0`. Each turn of the loop copies at least one
character, so that there are no more turns than characters. -/
def syscallExec (s : Mem.Tables) (puntatore : Mem.MemT) (sessione : Fat12Session)
    (pid : Option Int) (argv : List (List (BitVec 8))) : Option Avviato :=
  let (size, sessione) := sessione.fat12Seek 2 0
  let (_, sessione) := sessione.fat12Seek 1 0
  let size := codesize size.toInt
  let (base, allocate) := s.memAlloc (.ofInt 32 (size + ustackSize + kstackSize))
  if base = 0 then none
  else
    let c := Copia.loop (sessione.size.toNat + 1)
      { sessione := sessione, buffer := fun _ => 0, i := 0, blocco := fun _ => 0, copiati := [] }
    c.bind fun c => pid.map fun pid =>
      { pid := pid
        base := base
        codesize := size
        allocate := allocate
        tabelle := (allocate.memFree puntatore).2
        blocco := pushArgs size argv c.blocco
        copiati := c.copiati }

/-! ### What is expected -/

/-- The code region is large enough and holds the file, and what was copied is in the block
of the task. -/
structure Caricato (file : Fat12Session) (a : Avviato) : Prop where
  codesize : file.size.toNat ≤ a.codesize
  bytes : ∀ k : Nat, k < file.size.toNat → a.blocco k = file.image k
  blocco : ∃ j, (a.allocate.used j).flag = true ∧ (a.allocate.used j).base = a.base ∧
    ∀ o ∈ a.copiati, 0 ≤ o ∧ o < (a.allocate.used j).size.toNat

/-- The size of the code region, for every file. -/
def codeRegion : Nat := 9216

/-- The arguments change no byte of the file, if its code region is the one of all files. -/
def Innocui (argv : List (List (BitVec 8))) (file : Fat12Session) : Prop :=
  ∀ k : Nat, k < file.size.toNat → pushArgs codeRegion argv file.image k = file.image k

variable {s : Mem.Tables} {file : Fat12Session} {c c' : Copia}

/-! ### The copy -/

/-- While the file is copied, what was read is in its place. -/
structure Copiato (file : Fat12Session) (c : Copia) : Prop where
  vista : c.sessione.vista = { file.vista with cursor := c.i }
  le : c.i ≤ file.size.toNat
  bytes : ∀ k : Nat, k < c.i → c.blocco k = file.image k
  copiati : ∀ o ∈ c.copiati, 0 ≤ o ∧ o < c.i + 3

/-- The next characters are read, and copied to their place. -/
theorem Copiato.read (h : Copiato file c) (hsize : file.size ≤ fat12ImgSize) :
    ∃ r, c.sessione.fat12Read 20 c.buffer = some r ∧
      r.value = min 20 ((file.size.toNat : Int) - c.i) ∧ Copiato file (c.copia r) := by
  have hle := h.le
  have hshort : file.size.toNat ≤ 131072 := BitVec.le_def.mp hsize
  have hcursore : (c.sessione.cursore.toNat : Int) = c.i := congrArg View.cursor h.vista
  have hwithin : c.sessione.vista.Within := by
    rw [h.vista]
    exact ⟨Int.natCast_nonneg _, Int.ofNat_le.mpr hle⟩
  have hriesce : c.sessione.Riesce (.read 20 c.buffer) := by
    refine .inl ⟨by decide, ?_⟩
    change (c.sessione.cursore.toNat : Int) + 20 < 2 ^ 32
    omega
  obtain ⟨r, hr, hexpected⟩ := (Fat12Session.expected_iff hwithin (.read 20 c.buffer)).mpr hriesce
  obtain ⟨hvalue, hbuffer, hcursor⟩ := hexpected.answers (by decide)
  change r.value = min 20 (c.sessione.vista.size - c.sessione.vista.cursor) at hvalue
  change ∀ k, 0 ≤ k → k < r.value →
    r.buffer k = c.sessione.vista.content (c.sessione.vista.cursor + k) at hbuffer
  change r.session.vista.cursor = c.sessione.vista.cursor + r.value at hcursor
  have hkept : r.session.vista.size = c.sessione.vista.size := hexpected.size
  have hcontent : r.session.vista.content = c.sessione.vista.content := hexpected.content
  rw [h.vista] at hvalue hbuffer hcursor hkept hcontent
  change r.value = min 20 ((file.size.toNat : Int) - c.i) at hvalue
  refine ⟨r, hr, hvalue, ?_, ?_, ?_, ?_⟩
  · change r.session.vista = ⟨_, ((c.i + r.value.toNat : Nat) : Int), _⟩
    rw [← hkept, ← hcontent]
    have hplace : ((c.i + r.value.toNat : Nat) : Int) = r.session.vista.cursor := by
      rw [hcursor]
      dsimp only
      omega
    rw [hplace]
  · change c.i + r.value.toNat ≤ file.size.toNat
    omega
  · intro k hk
    change k < c.i + r.value.toNat at hk
    change memCopy _ 0 c.blocco c.i _ k = file.image k
    rw [memCopy_apply]
    split
    · rw [hbuffer _ (by omega) (by omega)]
      change file.image (c.i + _) = _
      congr 1
      omega
    · exact h.bytes k (by omega)
  · intro o ho
    change 0 ≤ o ∧ o < ((c.i + r.value.toNat : Nat) : Int) + 3
    rcases List.mem_append.mp ho with ho | ho
    · have hrange := mem_scritti.mp ho
      omega
    · have hold := h.copiati o ho
      omega

/-- The loop copies the whole file. -/
theorem Copiato.loop (h : Copiato file c) (hsize : file.size ≤ fat12ImgSize) (fuel : Nat)
    (hfuel : file.size.toNat < c.i + fuel) :
    ∃ c', c.loop fuel = some c' ∧ Copiato file c' ∧ c'.i = file.size.toNat := by
  induction fuel generalizing c with
  | zero =>
    have hle := h.le
    omega
  | succ fuel ih =>
    obtain ⟨r, hr, hvalue, hcopia⟩ := h.read hsize
    rw [Copia.loop, hr, Option.bind_some]
    by_cases hpos : 0 < r.value
    · rw [if_pos hpos]
      apply ih hcopia
      change file.size.toNat < c.i + r.value.toNat + fuel
      omega
    · rw [if_neg hpos]
      have hle := h.le
      exact ⟨c, rfl, h, by omega⟩

/-! ### The arguments -/

theorem kstrcpy_congr {m m' : Int → BitVec 8} {o : Int} (h : m o = m' o) (d : Int)
    (src : List (BitVec 8)) : kstrcpy m d src o = kstrcpy m' d src o := by
  unfold kstrcpy
  rw [h]

theorem foldl_congr {m m' : Int → BitVec 8} {o : Int} (h : m o = m' o) (esp : Int)
    (args : List (List (BitVec 8))) :
    (args.foldl taskPusharg (m, esp)).1 o = (args.foldl taskPusharg (m', esp)).1 o := by
  induction args generalizing m m' esp with
  | nil => exact h
  | cons arg args ih => exact ih (kstrcpy_congr h _ arg) _

/-- What the arguments leave in a place depends on what was there. -/
theorem pushArgs_congr {m m' : Int → BitVec 8} {o : Int} (h : m o = m' o) (codesize : Int)
    (argv : List (List (BitVec 8))) : pushArgs codesize argv m o = pushArgs codesize argv m' o :=
  foldl_congr h _ _

theorem foldl_frame {m : Int → BitVec 8} {o : Int} (args : List (List (BitVec 8))) (esp : Int)
    (ho : o ≤ esp - (args.map fun arg => (arg.length : Int) + 1).sum) :
    (args.foldl taskPusharg (m, esp)).1 o = m o := by
  induction args generalizing m esp with
  | nil => rfl
  | cons arg args ih =>
    rw [List.map_cons, List.sum_cons] at ho
    have hpos : 0 ≤ (args.map fun arg => (arg.length : Int) + 1).sum :=
      List.sum_nonneg (by simp only [List.mem_map]; rintro _ ⟨arg, -, rfl⟩; omega)
    rw [List.foldl_cons]
    refine (ih (esp - (arg.length + 1)) (by omega)).trans ?_
    unfold kstrcpy
    exact if_neg (by omega)

/-- Arguments that fit on the user stack harm no file that fits into its code region. -/
theorem innocui_of_short {argv : List (List (BitVec 8))} (hsize : file.size.toNat ≤ codeRegion)
    (hargv : ((argv.take taskMaxArgNum).reverse.map fun arg => (arg.length : Int) + 1).sum ≤
      ustackSize) : Innocui argv file := by
  intro k hk
  apply foldl_frame
  omega

/-! ### The whole call -/

variable {fileLenght : Word} {image : Option (Int → BitVec 8)}

/-- Sessions that look the same have the same cursor and the same size. -/
theorem vista_eq {file file' : Fat12Session} (h : file'.vista = file.vista) :
    file'.cursore = file.cursore ∧ file'.size = file.size :=
  ⟨BitVec.eq_of_toNat_eq (Int.ofNat_inj.mp (congrArg View.cursor h)),
    BitVec.eq_of_toNat_eq (Int.ofNat_inj.mp (congrArg View.size h))⟩

/-- The seek to the end writes the wrong field, so that every file has size 0. -/
theorem fat12Seek_fst (file : Fat12Session) (modo puntatore : Word) :
    (file.fat12Seek modo puntatore).1 = file.cursore :=
  (vista_eq (Fat12Session.fat12Seek_kept file modo puntatore)).1

theorem fat12Open_spec (h : fat12Open fileLenght image = some file) :
    file.cursore = 0 ∧ file.size ≤ fat12ImgSize := by
  obtain ⟨hsize, hmap⟩ := Option.ite_none_left_eq_some.mp h
  obtain ⟨image, -, rfl⟩ := Option.map_eq_some_iff.mp hmap
  exact ⟨rfl, BitVec.not_lt.mp hsize⟩

/-- The session behind the two seeks is at the start of the file. -/
theorem copiato_start (hcursore : file.cursore = 0) :
    Copiato file
      { sessione := ((file.fat12Seek 2 0).2.fat12Seek 1 0).2, buffer := fun _ => 0, i := 0,
        blocco := fun _ => 0, copiati := [] } := by
  refine ⟨?_, Nat.zero_le _, fun k hk => absurd hk (Nat.not_lt_zero k),
    fun o ho => absurd ho List.not_mem_nil⟩
  have hstart : file.vista = { file.vista with cursor := (0 : Nat) } := by
    unfold Fat12Session.vista
    rw [hcursore]
    rfl
  exact (Fat12Session.fat12Seek_kept _ 1 0).trans
    ((Fat12Session.fat12Seek_kept file 2 0).trans hstart)

/-- The copying loop of a file that was opened ends. -/
theorem loop_start (hcursore : file.cursore = 0) (hsize : file.size ≤ fat12ImgSize) :
    ∃ c, Copia.loop (((file.fat12Seek 2 0).2.fat12Seek 1 0).2.size.toNat + 1)
        { sessione := ((file.fat12Seek 2 0).2.fat12Seek 1 0).2, buffer := fun _ => 0, i := 0,
          blocco := fun _ => 0, copiati := [] } = some c ∧
      Copiato file c ∧ c.i = file.size.toNat := by
  have hkept : ((file.fat12Seek 2 0).2.fat12Seek 1 0).2.size = file.size :=
    (vista_eq (Fat12Session.fat12Seek_kept _ 1 0)).2.trans
      (vista_eq (Fat12Session.fat12Seek_kept file 2 0)).2
  rw [hkept]
  exact (copiato_start hcursore).loop hsize _ (by dsimp only; omega)

/-- What a task that is made looks like. -/
theorem syscallExec_spec {puntatore : Mem.MemT} {pid : Option Int}
    {argv : List (List (BitVec 8))} {a : Avviato} (hcursore : file.cursore = 0)
    (hsize : file.size ≤ fat12ImgSize) (h : syscallExec s puntatore file pid argv = some a) :
    a.codesize = codeRegion ∧ s.memAlloc 70656 = (a.base, a.allocate) ∧ a.base ≠ 0 ∧
      ∃ c, Copiato file c ∧ c.i = file.size.toNat ∧ a.copiati = c.copiati ∧
        a.blocco = pushArgs codeRegion argv c.blocco := by
  have hcode : codesize (file.fat12Seek 2 0).1.toInt = codeRegion := by
    rw [fat12Seek_fst, hcursore]
    rfl
  obtain ⟨c, hloop, hc, hi⟩ := loop_start hcursore hsize
  unfold syscallExec at h
  dsimp only at h
  rw [hcode, hloop, Option.bind_some] at h
  obtain ⟨hbase, hmap⟩ := Option.ite_none_left_eq_some.mp h
  obtain ⟨q, -, rfl⟩ := Option.map_eq_some_iff.mp hmap
  exact ⟨rfl, rfl, hbase, c, hc, hi, rfl, rfl⟩

/-- A task that is made from a file is as it should be exactly when the file fits into the
code region, which is the same for every file, and the arguments do it no harm. -/
theorem syscallExec_iff {puntatore : Mem.MemT} {pid : Option Int}
    {argv : List (List (BitVec 8))} {a : Avviato} (hopen : fat12Open fileLenght image = some file)
    (hexec : syscallExec s puntatore file pid argv = some a) :
    Caricato file a ↔ file.size.toNat ≤ codeRegion ∧ Innocui argv file := by
  obtain ⟨hcursore, hopened⟩ := fat12Open_spec hopen
  obtain ⟨hcode, halloc, hbase, c, hc, hi, hcopiati, hblocco⟩ :=
    syscallExec_spec hcursore hopened hexec
  have hargs : ∀ k : Nat, k < file.size.toNat →
      a.blocco k = pushArgs codeRegion argv file.image k := by
    intro k hk
    rw [hblocco]
    exact pushArgs_congr (hc.bytes k (hi ▸ hk)) _ argv
  constructor
  · intro h
    have hsize := h.codesize
    rw [hcode] at hsize
    refine ⟨Int.ofNat_le.mp hsize, ?_⟩
    intro k hk
    rw [← hargs k hk]
    exact h.bytes k hk
  · rintro ⟨hsize, hinnocui⟩
    have hserves : Mem.Serves s 70656 := Mem.serves_of_padded (.inl (by decide))
    unfold Mem.Serves at hserves
    rw [halloc] at hserves
    obtain ⟨j, hflag, hj, hroom⟩ := hserves hbase
    constructor
    · rw [hcode]
      exact Int.ofNat_le.mpr hsize
    · intro k hk
      rw [hargs k hk]
      exact hinnocui k hk
    · refine ⟨j, hflag, hj, ?_⟩
      intro o ho
      have hin := hc.copiati o (hcopiati ▸ ho)
      have hle : 70656 ≤ (a.allocate.used j).size.toNat := BitVec.le_def.mp hroom
      unfold codeRegion at hsize
      omega

/-- With memory for the block and a pid the call succeeds. -/
theorem syscallExec_some (s : Mem.Tables) (file : Fat12Session) (puntatore : Mem.MemT) (pid : Int)
    (argv : List (List (BitVec 8))) (hcursore : file.cursore = 0)
    (hsize : file.size ≤ fat12ImgSize) (halloc : (s.memAlloc 70656).1 ≠ 0) :
    ∃ a, syscallExec s puntatore file (some pid) argv = some a := by
  have hcode : codesize (file.fat12Seek 2 0).1.toInt = codeRegion := by
    rw [fat12Seek_fst, hcursore]
    rfl
  obtain ⟨c, hloop, -, -⟩ := loop_start hcursore hsize
  unfold syscallExec
  dsimp only
  rw [hcode, hloop]
  exact ⟨_, if_neg halloc⟩

/-- A file of `n` bytes, each of them `nop`. -/
def nops (n : Word) : Fat12Session :=
  { directory := 0, size := n, cursore := 0, image := fun _ => 0x90 }

/-- A file of 3 bytes is loaded. -/
theorem exec_of_short : ∃ a,
    syscallExec (Mem.memInit 4) 0x20000 (nops 3) (some 2) [] = some a ∧ Caricato (nops 3) a := by
  obtain ⟨a, ha⟩ := syscallExec_some (Mem.memInit 4) (nops 3) 0x20000 2 [] rfl
    (by decide) (by decide +kernel)
  have hopen : fat12Open 3 (some fun _ => 0x90) = some (nops 3) := rfl
  have hfits : (nops 3).size.toNat ≤ codeRegion := by decide
  exact ⟨a, ha, (syscallExec_iff hopen ha).mpr ⟨hfits, innocui_of_short hfits (by decide)⟩⟩

/-- A file of 9217 bytes is one byte longer than its code region. -/
theorem exec_long : ∃ a, fat12Open 9217 (some fun _ => 0x90) = some (nops 9217) ∧
    syscallExec (Mem.memInit 4) 0x20000 (nops 9217) (some 2) [] = some a ∧
    ¬ Caricato (nops 9217) a := by
  obtain ⟨a, ha⟩ := syscallExec_some (Mem.memInit 4) (nops 9217) 0x20000 2 [] rfl
    (by decide) (by decide +kernel)
  refine ⟨a, rfl, ha, fun h => ?_⟩
  have hsize := h.codesize
  rw [(syscallExec_spec rfl (by decide) ha).1] at hsize
  exact absurd hsize (by decide)

end OsdevArchive.Cheapos.Exec
