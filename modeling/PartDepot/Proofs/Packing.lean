import Mathlib.Algebra.Group.Nat.Defs
import PartDepot.Proofs.Unpacking

/-!
# Archives without compression

Bytes can be packed as one block that stores them as they are, and reading the block gives them
back. So an archive can be written down by its entries, and what it unpacks to follows from these.
-/

namespace PartDepot

namespace Inflate

/-! ## Bits of bytes -/

theorem readBits_testBit (n v : Nat) (rest : List Bool) :
    readBits n ((List.range n).map v.testBit ++ rest) = some (v % 2 ^ n, rest) := by
  induction n generalizing v with
  | zero => simp [readBits, Nat.mod_one]
  | succ n ih =>
      have hnext : (fun i => v.testBit (i + 1)) = (v / 2).testBit := by
        funext i
        exact Nat.testBit_succ v i
      have hhead : (v.testBit 0).toNat = v % 2 := by
        rw [Nat.testBit_zero]
        rcases Nat.mod_two_eq_zero_or_one v with h | h <;> simp [h]
      have hvalue : 2 * (v / 2 % 2 ^ n) + v % 2 = v % 2 ^ (n + 1) := by
        rw [Nat.pow_succ', Nat.mod_mul, Nat.add_comm]
      rw [List.range_succ_eq_map, List.map_cons, List.map_map, List.cons_append, readBits]
      simp only [Function.comp_def, Nat.succ_eq_add_one]
      rw [hnext, ih, Option.map_some, hhead, hvalue]

theorem readBits_add {m n v v' : Nat} {bits rest rest' : List Bool}
    (h : readBits m bits = some (v, rest)) (h' : readBits n rest = some (v', rest')) :
    readBits (m + n) bits = some (v + 2 ^ m * v', rest') := by
  induction m generalizing bits v with
  | zero =>
      obtain ⟨rfl, rfl⟩ := Prod.mk.inj (Option.some.inj h)
      simpa using h'
  | succ m ih =>
      cases bits with
      | nil => simp [readBits] at h
      | cons b bits =>
          rw [readBits, Option.map_eq_some_iff] at h
          obtain ⟨⟨low, left⟩, hlow, hpair⟩ := h
          obtain ⟨rfl, rfl⟩ := Prod.mk.inj hpair
          rw [Nat.succ_add, readBits, ih hlow, Option.map_some, Nat.pow_succ']
          dsimp only
          rw [Nat.mul_add, Nat.mul_assoc, Nat.add_right_comm]

theorem bitsOf_cons (b : UInt8) (bytes : List UInt8) :
    bitsOf (b :: bytes) = (List.range 8).map b.toNat.testBit ++ bitsOf bytes := rfl

theorem bitsOf_append (bytes bytes' : List UInt8) :
    bitsOf (bytes ++ bytes') = bitsOf bytes ++ bitsOf bytes' := List.flatMap_append

theorem readBits_byte (b : UInt8) (rest : List Bool) :
    readBits 8 ((List.range 8).map b.toNat.testBit ++ rest) = some (b.toNat, rest) := by
  rw [readBits_testBit, Nat.mod_eq_of_lt b.toNat_lt]

theorem readBits_pair (low high : UInt8) (bytes : List UInt8) :
    readBits 16 (bitsOf (low :: high :: bytes)) =
      some (low.toNat + 256 * high.toNat, bitsOf bytes) :=
  readBits_add (readBits_byte low _) (readBits_byte high _)

/-! ## Stored bytes -/

theorem readStored_bitsOf (bytes : List UInt8) (rest : List Bool) (out : Array UInt8) :
    readStored bytes.length (bitsOf bytes ++ rest) out = (out ++ bytes.toArray, some rest) := by
  induction bytes generalizing out with
  | nil => simp [readStored, bitsOf]
  | cons b bytes ih =>
      rw [List.length_cons, readStored, bitsOf_cons, List.append_assoc, readBits_byte]
      dsimp only
      rw [ih, UInt8.ofNat_toNat]
      simp

/-- Bytes in a wrapper of their own, as one block that stores them. -/
def pack (bytes trailer : List UInt8) : List UInt8 :=
  let low := UInt8.ofNat bytes.length
  let high := UInt8.ofNat (bytes.length / 256)
  [0x1f, 0x8b, 8, 0, 0, 0, 0, 0, 0, 255] ++ 1 :: low :: high :: (255 - low) :: (255 - high) ::
    (bytes ++ trailer)

/-- What was packed is found again. -/
theorem gunzip_pack {bytes : List UInt8} (h : bytes.length < 65536) (trailer : List UInt8) :
    (gunzip (pack bytes trailer)).bytes = bytes.toArray := by
  let low := UInt8.ofNat bytes.length
  let high := UInt8.ofNat (bytes.length / 256)
  let body := low :: high :: (255 - low) :: (255 - high) :: (bytes ++ trailer)
  have hheader : afterHeader (pack bytes trailer) = some (1 :: body) := rfl
  have hlow : low.toNat = bytes.length % 256 := by simp [low]
  have hhigh : high.toNat = bytes.length / 256 := by
    simp only [high, UInt8.toNat_ofNat']
    omega
  have hlength : low.toNat + 256 * high.toNat = bytes.length := by omega
  have hrest (b : UInt8) : (255 - b).toNat = 255 - b.toNat :=
    UInt8.toNat_sub_of_le _ _ (UInt8.le_iff_toNat_le.mpr (Nat.le_of_lt_succ b.toNat_lt))
  have hcheck : bytes.length + ((255 - low).toNat + 256 * (255 - high).toNat) = 65535 := by
    rw [hrest, hrest]
    omega
  -- After the three bits that open the block, five more are left of their byte.
  let rest := List.replicate 5 false ++ bitsOf body
  have hopen : bitsOf (1 :: body) = true :: false :: false :: rest := rfl
  have hskip : (8 - ((true :: false :: false :: rest).length - rest.length) % 8) % 8 = 5 := by
    simp only [List.length_cons]
    omega
  have hlengths : readBits 16 (bitsOf body) = some (bytes.length,
      bitsOf ((255 - low) :: (255 - high) :: (bytes ++ trailer))) := by
    rw [readBits_pair, hlength]
  have hbits : rest.drop 5 = bitsOf body := rfl
  have hdrop : (bitsOf body).drop 16 =
      bitsOf ((255 - low) :: (255 - high) :: (bytes ++ trailer)) := rfl
  have hblock (fuel : Nat) : readBlocks (true :: false :: false :: rest).length (fuel + 1)
      (true :: false :: false :: rest) #[] = (bytes.toArray, some (bitsOf trailer)) := by
    have hlast : readBits 1 (true :: false :: false :: rest) = some (1, false :: false :: rest) :=
      rfl
    have hkind : readBits 2 ((true :: false :: false :: rest).drop 1) = some (0, rest) := rfl
    rw [readBlocks, hlast, hkind]
    dsimp only
    rw [if_pos rfl, hskip, hbits, hlengths, hdrop, readBits_pair]
    dsimp only
    rw [if_pos hcheck, bitsOf_append, readStored_bitsOf]
    simp
  unfold gunzip
  rw [hheader]
  dsimp only
  rw [hopen, hblock]

end Inflate

/-! ## Packed archives -/

namespace Tar

deriving instance DecidableEq for Kind, Entry

section Packed

variable {bytes trailer : List UInt8} {entries : List Entry}

/-- Packed bytes that read as entries unpack as these do. -/
theorem unpack_pack (hlength : bytes.length < 65536)
    (hread : ∀ whole, readEntries whole (bytes.length + 1) {} bytes = some entries) (root : Place) :
    unpack root ⟨(Inflate.pack bytes trailer).toArray⟩ =
      (unpackEntries root (bareDisk root) entries).map
      fun d => d.nodes.filter fun e => root.isPrefixOf e.1 && e.1 != root := by
  unfold unpack
  dsimp only
  rw [Inflate.gunzip_pack hlength]
  simp only [List.size_toArray, hread, Option.bind_eq_bind, Option.bind_some]
  cases unpackEntries root (bareDisk root) entries <;> rfl

theorem entriesOf_pack (hlength : bytes.length < 65536)
    (hread : ∀ whole, readEntries whole (bytes.length + 1) {} bytes = some entries) :
    entriesOf ⟨(Inflate.pack bytes trailer).toArray⟩ = entries := by
  unfold entriesOf
  dsimp only
  rw [Inflate.gunzip_pack hlength]
  simp only [List.size_toArray, hread, Option.getD_some]

end Packed

/-- A header for a directory `a`, and the end mark. -/
def folderBytes : List UInt8 :=
  97 :: List.replicate 123 0 ++ 48 :: List.replicate 23 0 ++ [55, 48, 54] ++ List.replicate 5 0 ++
    53 :: List.replicate 355 0 ++ List.replicate 512 0

theorem readEntries_folderBytes (whole : Bool) :
    readEntries whole (folderBytes.length + 1) {} folderBytes = some [⟨"a", .dir⟩] := by
  revert whole
  decide +kernel

/-- An archive with the directory `a` at its top, and nothing in it. -/
def folder : ByteArray :=
  ⟨(Inflate.pack folderBytes [233, 112, 82, 13, 0, 4, 0, 0]).toArray⟩

theorem folder_linkFree : Packages.LinkFree folder := by
  refine linkFree_of_entries fun e he text => ?_
  rw [folder, entriesOf_pack (by decide +kernel) readEntries_folderBytes, List.mem_singleton] at he
  simp [he]

example : unpack ["s", "t"] folder = some [(["s", "t", "a"], .dir)] := by
  rw [folder, unpack_pack (by decide +kernel) readEntries_folderBytes]
  decide +kernel

end Tar

end PartDepot
