/-!
# Compressed data

Reads the deflate format and its gzip wrapper.  A broken stream still yields the bytes in front of
the place where it breaks, since readers may be done before they get there.
-/

namespace PartDepot.Inflate

/-- What a stream yields, and whether it is whole. -/
structure Inflated where
  bytes : Array UInt8
  whole : Bool

/-- The bits of bytes, the lowest bit of each first. -/
def bitsOf (bytes : List UInt8) : List Bool :=
  bytes.flatMap fun b => (List.range 8).map fun i => b.toNat.testBit i

/-- A number of `n` bits, the lowest first. -/
def readBits : Nat → List Bool → Option (Nat × List Bool)
  | 0, bits => some (0, bits)
  | _ + 1, [] => none
  | n + 1, b :: rest => (readBits n rest).map fun (v, rest) => (2 * v + b.toNat, rest)

/-- A code: for each length from one on how many symbols have it, and the symbols by length. -/
structure Code where
  counts : List Nat
  symbols : Array Nat

/-- The canonical code whose symbols have these lengths; zero means that a symbol is not used. -/
def Code.ofLengths (lengths : List Nat) : Code :=
  let used := lengths.zipIdx
  { counts := (List.range 15).map fun l => lengths.count (l + 1)
    symbols := ((List.range 15).flatMap fun l =>
      (used.filter (·.1 = l + 1)).map (·.2)).toArray }

/-- How many words of the last length are left over, if the code does not claim too many. -/
def Code.spare? (c : Code) : Option Nat :=
  c.counts.foldl (fun left n => do
    let left ← left
    if 2 * left < n then none else some (2 * left - n)) (some 1)

/-- The symbol whose word starts the bits. `code`, `first` and `index` are the word so far, the
first word of its length, and the number of symbols with shorter words. -/
def Code.decode (c : Code) : (counts : List Nat) → (code first index : Nat) → List Bool →
    Option (Nat × List Bool)
  | [], _, _, _, _ => none
  | _, _, _, _, [] => none
  | n :: counts, code, first, index, b :: rest =>
    let code := code + b.toNat
    if code < first + n then (c.symbols[index + (code - first)]?).map (·, rest)
    else c.decode counts (2 * code) (2 * (first + n)) (index + n) rest

def Code.read (c : Code) (bits : List Bool) : Option (Nat × List Bool) :=
  c.decode c.counts 0 0 0 bits

/-- Least length and number of further bits for each length symbol from 257 on. -/
def lengthCodes : List (Nat × Nat) :=
  [(3, 0), (4, 0), (5, 0), (6, 0), (7, 0), (8, 0), (9, 0), (10, 0), (11, 1), (13, 1), (15, 1),
   (17, 1), (19, 2), (23, 2), (27, 2), (31, 2), (35, 3), (43, 3), (51, 3), (59, 3), (67, 4),
   (83, 4), (99, 4), (115, 4), (131, 5), (163, 5), (195, 5), (227, 5), (258, 0)]

/-- Least distance and number of further bits for each distance symbol. -/
def distanceCodes : List (Nat × Nat) :=
  [(1, 0), (2, 0), (3, 0), (4, 0), (5, 1), (7, 1), (9, 2), (13, 2), (17, 3), (25, 3), (33, 4),
   (49, 4), (65, 5), (97, 5), (129, 6), (193, 6), (257, 7), (385, 7), (513, 8), (769, 8),
   (1025, 9), (1537, 9), (2049, 10), (3073, 10), (4097, 11), (6145, 11), (8193, 12), (12289, 12),
   (16385, 13), (24577, 13)]

def readExtra (table : List (Nat × Nat)) (symbol : Nat) (bits : List Bool) :
    Option (Nat × List Bool) := do
  let (least, extra) ← table[symbol]?
  let (more, rest) ← readBits extra bits
  some (least + more, rest)

def copyBack (out : Array UInt8) (distance : Nat) : Nat → Array UInt8
  | 0 => out
  | n + 1 => copyBack (out.push (out.getD (out.size - distance) 0)) distance n

/-- The symbols of a block up to its end; the rest is absent if the block breaks. -/
def readSymbols (literals distances : Code) :
    Nat → List Bool → Array UInt8 → Array UInt8 × Option (List Bool)
  | 0, _, out => (out, none)
  | fuel + 1, bits, out =>
    match literals.read bits with
    | none => (out, none)
    | some (symbol, bits) =>
      if symbol < 256 then readSymbols literals distances fuel bits (out.push (UInt8.ofNat symbol))
      else if symbol = 256 then (out, some bits)
      else
        let reference : Option (Nat × Nat × List Bool) := do
          let (length, bits) ← readExtra lengthCodes (symbol - 257) bits
          let (s, bits) ← distances.read bits
          let (distance, bits) ← readExtra distanceCodes s bits
          if out.size < distance then none else some (length, distance, bits)
        match reference with
        | none => (out, none)
        | some (length, distance, bits) =>
          readSymbols literals distances fuel bits (copyBack out distance length)

/-- The code lengths of a block, where symbols above fifteen repeat lengths. -/
def readLengths (code : Code) : Nat → (count : Nat) → List Bool → List Nat →
    Option (List Nat × List Bool)
  | 0, _, _, _ => none
  | fuel + 1, count, bits, newest =>
    if count ≤ newest.length then
      if newest.length = count then some (newest.reverse, bits) else none
    else do
      let (symbol, bits) ← code.read bits
      if symbol < 16 then readLengths code fuel count bits (symbol :: newest)
      else
        let (value, least, extra) ←
          if symbol = 16 then (newest.head?).map (·, 3, 2)
          else if symbol = 17 then some (0, 3, 3)
          else some (0, 11, 7)
        let (more, bits) ← readBits extra bits
        readLengths code fuel count bits (List.replicate (least + more) value ++ newest)

/-- The order in which the lengths of the length code are given. -/
def lengthOrder : List Nat := [16, 17, 18, 0, 8, 7, 9, 6, 10, 5, 11, 4, 12, 3, 13, 2, 14, 1, 15]

def readTriples : Nat → List Bool → Option (List Nat × List Bool)
  | 0, bits => some ([], bits)
  | n + 1, bits => do
    let (v, bits) ← readBits 3 bits
    let (vs, bits) ← readTriples n bits
    some (v :: vs, bits)

def readCodes (bits : List Bool) : Option (Code × Code × List Bool) := do
  let (literalCount, bits) ← readBits 5 bits
  let (distanceCount, bits) ← readBits 5 bits
  let (lengthCount, bits) ← readBits 4 bits
  let (triples, bits) ← readTriples (lengthCount + 4) bits
  let given := lengthOrder.zip triples
  let lengthCode := Code.ofLengths ((List.range 19).map fun s => (given.lookup s).getD 0)
  let _ ← lengthCode.spare?
  let total := literalCount + 257 + distanceCount + 1
  let (lengths, bits) ← readLengths lengthCode (total + 1) total bits []
  let literals := Code.ofLengths (lengths.take (literalCount + 257))
  let distances := Code.ofLengths (lengths.drop (literalCount + 257))
  let _ ← literals.spare?
  let _ ← distances.spare?
  some (literals, distances, bits)

def fixedLiterals : Code :=
  Code.ofLengths (List.replicate 144 8 ++ List.replicate 112 9 ++ List.replicate 24 7
    ++ List.replicate 8 8)

def fixedDistances : Code := Code.ofLengths (List.replicate 30 5)

def readStored : Nat → List Bool → Array UInt8 → Array UInt8 × Option (List Bool)
  | 0, bits, out => (out, some bits)
  | n + 1, bits, out =>
    match readBits 8 bits with
    | none => (out, none)
    | some (b, bits) => readStored n bits (out.push (UInt8.ofNat b))

/-- Blocks up to the last one. `total` is the number of bits of the stream, by which stored bytes
find their place. -/
def readBlocks (total : Nat) : Nat → List Bool → Array UInt8 → Array UInt8 × Option (List Bool)
  | 0, _, out => (out, none)
  | fuel + 1, bits, out =>
    match readBits 1 bits, readBits 2 (bits.drop 1) with
    | some (last, _), some (kind, bits) =>
      let (out, rest) :=
        if kind = 0 then
          let bits := bits.drop ((8 - (total - bits.length) % 8) % 8)
          match readBits 16 bits, readBits 16 (bits.drop 16) with
          | some (length, _), some (check, bits) =>
            if length + check = 65535 then readStored length bits out else (out, none)
          | _, _ => (out, none)
        else if kind = 1 then readSymbols fixedLiterals fixedDistances (bits.length + 1) bits out
        else if kind = 2 then
          match readCodes bits with
          | some (literals, distances, bits) =>
            readSymbols literals distances (bits.length + 1) bits out
          | none => (out, none)
        else (out, none)
      match rest with
      | none => (out, none)
      | some bits => if last = 1 then (out, some bits) else readBlocks total fuel bits out
    | _, _ => (out, none)

/-! ## The wrapper -/

def crcStep (crc : UInt32) (b : UInt8) : UInt32 :=
  (List.range 8).foldl (fun c _ => if c &&& 1 = 1 then (c >>> 1) ^^^ 0xEDB88320 else c >>> 1)
    (crc ^^^ b.toUInt32)

def crc (bytes : Array UInt8) : UInt32 := ~~~ (bytes.foldl crcStep 0xFFFFFFFF)

/-- A number of bytes, the lowest first. -/
def littleEndian (bytes : List UInt8) : Nat := bytes.foldr (fun b n => b.toNat + 256 * n) 0

def dropText (s : List UInt8) : List UInt8 := (s.dropWhile (· != 0)).drop 1

def afterHeader (s : List UInt8) : Option (List UInt8) :=
  match s with
  | 0x1f :: 0x8b :: 8 :: flags :: _ :: _ :: _ :: _ :: _ :: _ :: rest =>
    let flag (i : Nat) : Bool := flags.toNat.testBit i
    let rest := if flag 2 then rest.drop (2 + littleEndian (rest.take 2)) else rest
    let rest := if flag 3 then dropText rest else rest
    let rest := if flag 4 then dropText rest else rest
    some (if flag 1 then rest.drop 2 else rest)
  | _ => none

def gunzip (file : List UInt8) : Inflated :=
  match afterHeader file with
  | none => ⟨#[], false⟩
  | some body =>
    let bits := bitsOf body
    match readBlocks bits.length (bits.length + 1) bits #[] with
    | (out, none) => ⟨out, false⟩
    | (out, some rest) =>
      let trailer := body.drop (body.length - rest.length / 8)
      let sum := littleEndian (trailer.take 4)
      let size := littleEndian ((trailer.drop 4).take 4)
      ⟨out, 8 ≤ trailer.length && sum = (crc out).toNat && size = out.size % 0x1_0000_0000⟩

end PartDepot.Inflate
