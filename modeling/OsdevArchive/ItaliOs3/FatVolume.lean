import OsdevArchive.ItaliOs3.Fat
import OsdevArchive.Lib.Chained
import Mathlib.Data.Finset.Card
import Mathlib.Data.Finset.Range
import Mathlib.Data.List.Nodup

/-!
Volumes with a FAT of 12 bits, and the chains of their files. The loops of `carica_file` and
`dim_file` follow a chain to its end where its end mark is 0xFFF, and take 512 bytes of each
cluster.
-/

namespace OsdevArchive.ItaliOs3.Fat

open OsdevArchive.Lib.ByteBuffer OsdevArchive.Lib.Chained

/-- A disk with its clusters, whose first one has number 2. -/
structure Volume extends Disk where
  clusters : Nat
  few : clusters < 4085
  clusterBytes_pos : 0 < toDisk.d.clusterBytes
  clusterBytes_le : toDisk.d.clusterBytes ≤ 2 ^ 16
  small : size < 2 ^ 31
  fat : toDisk.d.fatPos + (clusters + 1) / 2 * 3 + 3 ≤ size
  data : toDisk.d.firstDataByte + clusters * toDisk.d.clusterBytes ≤ size
  full : size < toDisk.d.firstDataByte + (clusters + 1) * toDisk.d.clusterBytes

variable (v : Volume)

/-- The entry of a cluster: 12 bits, of which two lie in three bytes with the low ones first. -/
def fatEntry (cluster : Nat) : Nat :=
  let o := v.d.fatPos + cluster + cluster / 2
  let w := (v.bytes o).toNat + (v.bytes (o + 1)).toNat * 256
  if cluster % 2 = 0 then w % 2 ^ 12 else w / 2 ^ 4

/-- The end marks. -/
abbrev EndMark (cluster : Nat) : Prop := 0xFF8 ≤ cluster

/-- The clusters of a file that starts with cluster `start`; an empty one has none. -/
def FileChain (start : Nat) (cs : List Nat) : Prop :=
  start = 0 ∧ cs = [] ∨
    cs ≠ [] ∧ Chain (fatEntry v) EndMark start cs ∧ ∀ c ∈ cs, 2 ≤ c ∧ c < v.clusters + 2

/-- The bytes of a cluster. -/
def clusterData (cluster : Nat) : List Byte :=
  (List.range' (clusterByte v.toDisk cluster) v.d.clusterBytes).map v.bytes

/-- The last entry of the chain is 0xFFF. -/
def EndsPlain (cs : List Nat) : Prop := ∀ c ∈ cs.getLast?, fatEntry v c = 0xFFF

variable {v} {c n lung : Nat} {cs : List Nat} {buffer : List Byte}

/-! ### Entries of the FAT -/

theorem low_bits (b : Byte) : b.toNat >>> 4 &&& 0xf = b.toNat / 2 ^ 4 := by
  have hsmall : b.toNat / 2 ^ 4 < 2 ^ 4 := by omega
  rw [Nat.shiftRight_eq_div_pow, Nat.and_two_pow_sub_one_eq_mod _ 4, Nat.mod_eq_of_lt hsmall]

theorem high_bits (b : Byte) : b.toNat <<< 4 &&& 0xff0 = b.toNat * 2 ^ 4 := by
  have hmask : (0xff0 : Nat) = 0xff <<< 4 := by decide
  rw [hmask, ← Nat.shiftLeft_and_distrib, Nat.and_two_pow_sub_one_eq_mod _ 8,
    Nat.mod_eq_of_lt b.isLt, Nat.shiftLeft_eq]

theorem middle_bits (b : Byte) : b.toNat <<< 8 &&& 0xf00 = b.toNat % 2 ^ 4 * 2 ^ 8 := by
  have hmask : (0xf00 : Nat) = 0xf <<< 8 := by decide
  rw [hmask, ← Nat.shiftLeft_and_distrib, Nat.and_two_pow_sub_one_eq_mod _ 4, Nat.shiftLeft_eq]

theorem leggiFloppy_eq {p : Nat} (h : p + n ≤ v.size) :
    leggiFloppy v.toDisk p n = some ((List.range' p n).map v.bytes) := if_pos h

/-- The entry of a cluster is read, and 0xFFF taken for the end. -/
theorem nextCluster_eq (hc : c < v.clusters + 2) :
    nextCluster v.toDisk c = some (if fatEntry v c = 0xFFF then 0 else fatEntry v c) := by
  have hfat := v.fat
  have hread := leggiFloppy_eq (v := v) (p := v.d.fatPos + c / 2 * 3) (n := 3) (by omega)
  have hvalue : (if c % 2 ≠ 0 then
      ((v.bytes (v.d.fatPos + c / 2 * 3 + 1)).toNat >>> 4 &&& 0xf) |||
        ((v.bytes (v.d.fatPos + c / 2 * 3 + 2)).toNat <<< 4 &&& 0xff0)
      else ((v.bytes (v.d.fatPos + c / 2 * 3 + 1)).toNat <<< 8 &&& 0xf00) |||
        ((v.bytes (v.d.fatPos + c / 2 * 3)).toNat &&& 0xff)) = fatEntry v c := by
    unfold fatEntry
    dsimp only
    split
    · rename_i hodd
      have hplace : v.d.fatPos + c + c / 2 = v.d.fatPos + c / 2 * 3 + 1 := by omega
      have hlow : (v.bytes (v.d.fatPos + c / 2 * 3 + 1)).toNat / 2 ^ 4 < 2 ^ 4 := by omega
      rw [hplace, Nat.add_assoc _ 1 1, low_bits, high_bits, Nat.or_comm, ← Nat.shiftLeft_eq,
        ← Nat.shiftLeft_add_eq_or_of_lt hlow, Nat.shiftLeft_eq]
      omega
    · rename_i heven
      have hplace : v.d.fatPos + c + c / 2 = v.d.fatPos + c / 2 * 3 := by omega
      rw [if_pos (not_not.mp heven), hplace, middle_bits, Nat.and_two_pow_sub_one_eq_mod _ 8,
        Nat.mod_eq_of_lt (v.bytes _).isLt, ← Nat.shiftLeft_eq,
        ← Nat.shiftLeft_add_eq_or_of_lt (v.bytes _).isLt, Nat.shiftLeft_eq]
      omega
  rw [← hvalue]
  unfold nextCluster
  rw [hread]
  rfl

/-! ### Where clusters are -/

theorem clusterByte_eq (hc : 2 ≤ c) (hfew : c < 2 ^ 12) :
    clusterByte v.toDisk c = (c - 2) * v.d.clusterBytes + v.d.firstDataByte := by
  have hdata := v.data
  have hsmall := v.small
  have hle := Nat.mul_le_mul (show c - 2 ≤ 2 ^ 12 by omega) v.clusterBytes_le
  unfold clusterByte
  rw [if_neg (by omega), Nat.mod_eq_of_lt (by omega)]

/-- The clusters of the volume are on the disk. -/
theorem clusterByte_inside (hc : 2 ≤ c) (hlt : c < v.clusters + 2) :
    clusterByte v.toDisk c + v.d.clusterBytes ≤ v.size := by
  have hfew := v.few
  have hdata := v.data
  have hmul : (c - 2 + 1) * v.d.clusterBytes ≤ v.clusters * v.d.clusterBytes :=
    Nat.mul_le_mul_right _ (by omega)
  rw [Nat.add_mul, Nat.one_mul] at hmul
  rw [clusterByte_eq hc (by omega)]
  omega

/-- An end mark is no cluster of the disk. -/
theorem clusterByte_outside (hc : EndMark c) (hlt : c < 2 ^ 12) :
    v.size < clusterByte v.toDisk c := by
  have hfew := v.few
  have hfull := v.full
  have hmul : (v.clusters + 1) * v.d.clusterBytes ≤ (c - 2) * v.d.clusterBytes :=
    Nat.mul_le_mul_right _ (by omega)
  rw [clusterByte_eq (by omega) hlt]
  omega

theorem fatEntry_lt (c : Nat) : fatEntry v c < 2 ^ 12 := by
  unfold fatEntry
  dsimp only
  have hlow := (v.bytes (v.d.fatPos + c + c / 2)).isLt
  have hhigh := (v.bytes (v.d.fatPos + c + c / 2 + 1)).isLt
  split
  · omega
  · omega

/-! ### The loops over clusters -/

/-- The clusters of the volume that a chain goes through. -/
def InVolume (v : Volume) (cs : List Nat) : Prop := ∀ c ∈ cs, 2 ≤ c ∧ c < v.clusters + 2

theorem chain_short (h : Chain (fatEntry v) EndMark c cs) (hin : InVolume v cs) :
    cs.length * 512 < 2 ^ 32 := by
  have hsub : cs.toFinset ⊆ Finset.range (v.clusters + 2) := by
    intro b hb
    exact Finset.mem_range.mpr (hin b (List.mem_toFinset.mp hb)).2
  have hcard := Finset.card_le_card hsub
  rw [List.toFinset_card_of_nodup h.nodup, Finset.card_range] at hcard
  have hfew := v.few
  omega

theorem InVolume.tail (h : InVolume v (c :: cs)) : InVolume v cs :=
  fun b hb => h b (List.mem_cons_of_mem c hb)

/-- A chain has one cluster, with an end mark as its entry, or goes on behind its first one. -/
theorem chain_cases (h : Chain (fatEntry v) EndMark c cs) (hne : cs ≠ []) (hin : InVolume v cs) :
    cs = [c] ∧ EndMark (fatEntry v c) ∨
      ∃ tail, cs = c :: tail ∧ tail ≠ [] ∧ Chain (fatEntry v) EndMark (fatEntry v c) tail ∧
        fatEntry v c ≠ 0xFFF ∧ fatEntry v c ≠ 0 := by
  cases h with
  | nil _ => exact absurd rfl hne
  | @cons _ tail hgo htail =>
    obtain rfl | ⟨d, ds, rfl⟩ : tail = [] ∨ ∃ d ds, tail = d :: ds := by
      cases tail with
      | nil => exact .inl rfl
      | cons d ds => exact .inr ⟨d, ds, rfl⟩
    · exact .inl ⟨rfl, htail.stop_iff.mpr rfl⟩
    · have hnot : ¬ EndMark (fatEntry v c) := fun hstop => by cases htail.eq_nil hstop
      obtain ⟨_, heq, -⟩ := htail.eq_cons hnot
      have hfirst := (hin (fatEntry v c) (by rw [← (List.cons.inj heq).1]; simp)).1
      refine .inr ⟨d :: ds, rfl, List.cons_ne_nil d ds, htail, fun hend => hnot ?_, by omega⟩
      unfold EndMark
      omega

theorem endsPlain_cons (hne : cs ≠ []) : EndsPlain v (c :: cs) ↔ EndsPlain v cs := by
  unfold EndsPlain
  rw [List.getLast?_cons, List.getLast?_eq_some_getLast hne]
  rfl

theorem endsPlain_single : EndsPlain v [c] ↔ fatEntry v c = 0xFFF := by
  unfold EndsPlain
  rw [List.getLast?_singleton]
  exact ⟨fun h => h c rfl, fun h b hb => by rwa [← Option.some.inj hb]⟩

/-- With the end mark 0xFFF `dim_file` counts the clusters. -/
theorem dimChain_eq (h : Chain (fatEntry v) EndMark c cs) (hne : cs ≠ []) (hin : InVolume v cs)
    (hend : EndsPlain v cs) (hroom : lung + cs.length * 512 < 2 ^ 32) :
    dimChain v.toDisk cs.length c lung = some (lung + cs.length * 512) := by
  induction cs generalizing c lung with
  | nil => exact absurd rfl hne
  | cons b cs ih =>
    rw [List.length_cons] at hroom ⊢
    obtain ⟨heq, -⟩ | ⟨tail, heq, htailne, htail, hgo, hpos⟩ := chain_cases h hne hin
    · obtain ⟨rfl, rfl⟩ := List.cons.inj heq
      unfold dimChain
      rw [nextCluster_eq (hin b List.mem_cons_self).2, if_pos (endsPlain_single.mp hend)]
      dsimp only [Option.bind_eq_bind, Option.bind_some]
      rw [if_neg (not_not.mpr rfl), Nat.mod_eq_of_lt (by omega)]
      rfl
    · obtain ⟨rfl, rfl⟩ := List.cons.inj heq
      unfold dimChain
      rw [nextCluster_eq (hin b List.mem_cons_self).2, if_neg hgo]
      dsimp only [Option.bind_eq_bind, Option.bind_some]
      rw [if_pos hpos, Nat.mod_eq_of_lt (by omega),
        ih htail htailne hin.tail ((endsPlain_cons htailne).mp hend) (by omega)]
      congr 1
      omega

/-- With the end mark 0xFFF and clusters of 512 bytes `leggi_file` reads the clusters. -/
theorem leggiFile_eq (h : Chain (fatEntry v) EndMark c cs) (hne : cs ≠ []) (hin : InVolume v cs)
    (hend : EndsPlain v cs) (hroom : lung + cs.length * 512 < 2 ^ 32)
    (hbytes : v.d.clusterBytes = 512) :
    leggiFile v.toDisk cs.length c lung buffer =
      some (lung + cs.length * 512, buffer ++ contents (clusterData v) cs) := by
  induction cs generalizing c lung buffer with
  | nil => exact absurd rfl hne
  | cons b cs ih =>
    have hb := hin b List.mem_cons_self
    have hinside := clusterByte_inside hb.1 hb.2
    rw [hbytes] at hinside
    have hread : leggiFloppy v.toDisk (clusterByte v.toDisk b) 512 = some (clusterData v b) := by
      unfold clusterData
      rw [leggiFloppy_eq hinside, hbytes]
    rw [List.length_cons] at hroom ⊢
    obtain ⟨heq, -⟩ | ⟨tail, heq, htailne, htail, hgo, hpos⟩ := chain_cases h hne hin
    · obtain ⟨rfl, rfl⟩ := List.cons.inj heq
      unfold leggiFile
      dsimp only
      rw [hread, nextCluster_eq hb.2, if_pos (endsPlain_single.mp hend)]
      dsimp only [Option.bind_eq_bind, Option.bind_some]
      rw [if_neg (not_not.mpr rfl), Nat.mod_eq_of_lt (by omega), contents_cons, contents_nil,
        List.append_nil]
      rfl
    · obtain ⟨rfl, rfl⟩ := List.cons.inj heq
      unfold leggiFile
      dsimp only
      rw [hread, nextCluster_eq hb.2, if_neg hgo]
      dsimp only [Option.bind_eq_bind, Option.bind_some]
      rw [if_pos hpos, Nat.mod_eq_of_lt (by omega),
        ih htail htailne hin.tail ((endsPlain_cons htailne).mp hend) (by omega), contents_cons,
        List.append_assoc]
      have hlength : lung + 512 + cs.length * 512 = lung + (cs.length + 1) * 512 := by omega
      rw [hlength]

/-- What `leggi_file` returns is 512 for each cluster, as far as it ends at the end mark. -/
theorem leggiFile_length (h : Chain (fatEntry v) EndMark c cs) (hne : cs ≠ [])
    (hin : InVolume v cs) (hend : EndsPlain v cs) (hroom : lung + cs.length * 512 < 2 ^ 32)
    {result : Nat × List Byte} (hrun : leggiFile v.toDisk n c lung buffer = some result) :
    result.1 = lung + cs.length * 512 := by
  induction n generalizing c cs lung buffer with
  | zero => cases hrun
  | succ n ih =>
    unfold leggiFile at hrun
    dsimp only at hrun
    cases hread : leggiFloppy v.toDisk (clusterByte v.toDisk c) 512 with
    | none =>
      rw [hread] at hrun
      cases hrun
    | some data =>
      rw [hread] at hrun
      obtain ⟨rfl, -⟩ | ⟨tail, rfl, htailne, htail, hgo, hpos⟩ := chain_cases h hne hin
      · rw [nextCluster_eq (hin c List.mem_cons_self).2, if_pos (endsPlain_single.mp hend)] at hrun
        dsimp only [Option.bind_eq_bind, Option.bind_some] at hrun
        rw [List.length_singleton, Nat.one_mul] at hroom ⊢
        rw [if_neg (not_not.mpr rfl), Nat.mod_eq_of_lt hroom] at hrun
        rw [← Option.some.inj hrun]
      · rw [List.length_cons] at hroom ⊢
        rw [nextCluster_eq (hin c List.mem_cons_self).2, if_neg hgo] at hrun
        dsimp only [Option.bind_eq_bind, Option.bind_some] at hrun
        rw [if_pos hpos, Nat.mod_eq_of_lt (by omega)] at hrun
        rw [ih htail htailne hin.tail ((endsPlain_cons htailne).mp hend) (by omega) hrun]
        omega

/-- With another end mark `leggi_file` goes on behind the end of the disk. -/
theorem leggiFile_fails (h : Chain (fatEntry v) EndMark c cs) (hne : cs ≠ [])
    (hin : InVolume v cs) (hend : ¬ EndsPlain v cs) :
    leggiFile v.toDisk n c lung buffer = none := by
  induction n generalizing c cs lung buffer with
  | zero => rfl
  | succ n ih =>
    unfold leggiFile
    dsimp only
    cases leggiFloppy v.toDisk (clusterByte v.toDisk c) 512 with
    | none => rfl
    | some data =>
      obtain ⟨rfl, hmark⟩ | ⟨tail, rfl, htailne, htail, hgo, hpos⟩ := chain_cases h hne hin
      · rw [endsPlain_single] at hend
        rw [nextCluster_eq (hin c List.mem_cons_self).2, if_neg hend]
        dsimp only [Option.bind_eq_bind, Option.bind_some]
        rw [if_pos (by unfold EndMark at hmark; omega)]
        have houtside := @clusterByte_outside v _ hmark (fatEntry_lt c)
        cases n with
        | zero => rfl
        | succ n =>
          unfold leggiFile leggiFloppy
          dsimp only
          rw [if_neg (by omega)]
          rfl
      · rw [nextCluster_eq (hin c List.mem_cons_self).2, if_neg hgo]
        dsimp only [Option.bind_eq_bind, Option.bind_some]
        rw [if_pos hpos]
        exact ih htail htailne hin.tail fun hplain => hend ((endsPlain_cons htailne).mpr hplain)

end OsdevArchive.ItaliOs3.Fat
