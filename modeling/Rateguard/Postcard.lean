import Mathlib

/- The postcard wire format, as documented: a codec writes a value, reads one off the front
   of what it is given, and comes with the proofs that reading undoes writing, and that
   whatever it reads is no shorter on the wire than its own encoding. -/
namespace Postcard

structure Codec (α : Type) where
  enc : α → List UInt8
  dec : List UInt8 → Option (α × List UInt8)
  Valid : α → Prop
  round : ∀ a rest, Valid a → dec (enc a ++ rest) = some (a, rest)
  sound : ∀ bytes a rest, dec bytes = some (a, rest) →
    Valid a ∧ (enc a).length + rest.length ≤ bytes.length

namespace Codec
variable {α β : Type}

def byte : Codec UInt8 where
  enc b := [b]
  dec
    | [] => none
    | b :: rest => some (b, rest)
  Valid _ := True
  round _ _ _ := rfl
  sound bytes a rest h := by
    cases bytes with
    | nil => simp at h
    | cons b rest' =>
      simp only [Option.some.injEq, Prod.mk.injEq] at h
      obtain ⟨rfl, rfl⟩ := h
      simp [Nat.add_comm]

def unit : Codec Unit where
  enc _ := []
  dec bytes := some ((), bytes)
  Valid _ := True
  round _ _ _ := rfl
  sound bytes a rest h := by
    simp only [Option.some.injEq, Prod.mk.injEq] at h
    simp [h.2]

/- The first, then the second. -/
def pair (c : Codec α) (d : Codec β) : Codec (α × β) where
  enc x := c.enc x.1 ++ d.enc x.2
  dec bytes := do
    let (a, bytes) ← c.dec bytes
    let (b, bytes) ← d.dec bytes
    some ((a, b), bytes)
  Valid x := c.Valid x.1 ∧ d.Valid x.2
  round x rest valid := by
    simp only [List.append_assoc, c.round _ _ valid.1, d.round _ _ valid.2, bind, Option.bind]
  sound bytes x rest h := by
    simp only [bind, Option.bind_eq_some_iff, Option.some.injEq, Prod.mk.injEq] at h
    obtain ⟨⟨a, middle⟩, first, ⟨b, last⟩, second, rfl, rfl⟩ := h
    obtain ⟨validA, shorterA⟩ := c.sound _ _ _ first
    obtain ⟨validB, shorterB⟩ := d.sound _ _ _ second
    refine ⟨⟨validA, validB⟩, ?_⟩
    simp only [List.length_append] at *
    omega

/- The same bytes, read as another type. -/
def map (c : Codec α) (into : α → β) (back : β → α) (into_back : ∀ b, into (back b) = b)
    (back_into : ∀ a, c.Valid a → back (into a) = a) : Codec β where
  enc b := c.enc (back b)
  dec bytes := (c.dec bytes).map fun read => (into read.1, read.2)
  Valid b := c.Valid (back b)
  round b rest valid := by simp [c.round _ rest valid, into_back]
  sound bytes b rest h := by
    simp only [Option.map_eq_some_iff, Prod.mk.injEq] at h
    obtain ⟨⟨a, rest'⟩, read, rfl, rfl⟩ := h
    obtain ⟨valid, shorter⟩ := c.sound _ _ _ read
    rw [back_into a valid]
    exact ⟨valid, shorter⟩

/- Values one after the other, their number known. -/
def decMany (c : Codec α) : Nat → List UInt8 → Option (List α × List UInt8)
  | 0, bytes => some ([], bytes)
  | n + 1, bytes => do
    let (a, bytes) ← c.dec bytes
    let (as, bytes) ← decMany c n bytes
    some (a :: as, bytes)

def encMany (c : Codec α) (as : List α) : List UInt8 := as.flatMap c.enc

theorem decMany_encMany (c : Codec α) (as : List α) (rest : List UInt8)
    (valid : ∀ a ∈ as, c.Valid a) : decMany c as.length (encMany c as ++ rest) = some (as, rest) := by
  induction as with
  | nil => rfl
  | cons a as ih =>
    have first := c.round a (encMany c as ++ rest) (valid a List.mem_cons_self)
    have others := ih fun a mem => valid a (List.mem_cons_of_mem _ mem)
    simp only [encMany, List.flatMap_cons, List.append_assoc] at first others ⊢
    simp only [List.length_cons, decMany, first, others, bind, Option.bind]

theorem decMany_sound (c : Codec α) {n : Nat} {bytes : List UInt8} {as : List α}
    {rest : List UInt8} (h : decMany c n bytes = some (as, rest)) :
    as.length = n ∧ (∀ a ∈ as, c.Valid a) ∧ (encMany c as).length + rest.length ≤ bytes.length := by
  induction n generalizing bytes as rest with
  | zero =>
    simp only [decMany, Option.some.injEq, Prod.mk.injEq] at h
    obtain ⟨rfl, rfl⟩ := h
    simp [encMany]
  | succ n ih =>
    simp only [decMany, bind, Option.bind_eq_some_iff, Option.some.injEq, Prod.mk.injEq] at h
    obtain ⟨⟨a, middle⟩, first, ⟨as', last⟩, others, rfl, rfl⟩ := h
    obtain ⟨validA, shorterA⟩ := c.sound _ _ _ first
    obtain ⟨length, valid, shorter⟩ := ih others
    refine ⟨by simp [length], ?_, ?_⟩
    · intro b mem
      rcases List.mem_cons.mp mem with rfl | mem
      · exact validA
      · exact valid b mem
    · simp only [encMany, List.flatMap_cons, List.length_append] at shorter ⊢
      omega

def many (c : Codec α) (n : Nat) : Codec (List α) where
  enc := encMany c
  dec := decMany c n
  Valid as := as.length = n ∧ ∀ a ∈ as, c.Valid a
  round as rest valid := by
    rw [← valid.1]
    exact decMany_encMany c as rest valid.2
  sound bytes as rest h := by
    obtain ⟨length, valid, shorter⟩ := decMany_sound c h
    exact ⟨⟨length, valid⟩, shorter⟩

/- Seven bits a byte, the least first, the top bit set on every byte but the last; at most
   k bytes. -/
def encVarint : Nat → Nat → List UInt8
  | 0, _ => []
  | k + 1, n =>
    if n < 128 then [UInt8.ofNat n] else UInt8.ofNat (n % 128 + 128) :: encVarint k (n / 128)

/- width is the number of bits still to come. The last byte there is room for may not
   overflow it; a longer form of a smaller number is read. -/
def decVarint : Nat → Nat → List UInt8 → Option (Nat × List UInt8)
  | 0, _, _ => none
  | _, _, [] => none
  | k + 1, width, b :: bytes =>
    if b.toNat < 128 then
      if k = 0 ∧ 2 ^ width ≤ b.toNat then none else some (b.toNat, bytes)
    else do
      let (high, bytes) ← decVarint k (width - 7) bytes
      some (b.toNat - 128 + 128 * high, bytes)

theorem decVarint_encVarint {k width n : Nat} (pos : 0 < width) (fits : width ≤ 7 * k)
    (last : 7 * k < width + 7) (small : n < 2 ^ width) (rest : List UInt8) :
    decVarint k width (encVarint k n ++ rest) = some (n, rest) := by
  induction k generalizing width n with
  | zero => omega
  | succ k ih =>
    simp only [encVarint]
    by_cases short : n < 128
    · have byte : (UInt8.ofNat n).toNat = n := by
        rw [UInt8.toNat_ofNat']
        omega
      simp only [short, ↓reduceIte, List.cons_append, List.nil_append, decVarint, byte]
      rw [if_neg fun both => absurd both.2 (Nat.not_le.mpr small)]
    · have byte : (UInt8.ofNat (n % 128 + 128)).toNat = n % 128 + 128 := by
        rw [UInt8.toNat_ofNat']
        omega
      have wide : 7 < width := by
        by_contra narrow
        have := Nat.pow_le_pow_right (show 0 < 2 by decide) (show width ≤ 7 by omega)
        omega
      have power : 2 ^ width = 128 * 2 ^ (width - 7) := by
        rw [show (128 : Nat) = 2 ^ 7 from rfl, ← Nat.pow_add]
        congr 1
        omega
      have high := @ih (width - 7) (n / 128) (by omega) (by omega) (by omega) (by omega)
      simp only [short, ↓reduceIte, List.cons_append, decVarint, byte, high, bind, Option.bind]
      rw [if_neg (by omega)]
      congr 2
      omega

theorem encVarint_length (k n : Nat) : (encVarint k n).length ≤ k := by
  induction k generalizing n with
  | zero => simp [encVarint]
  | succ k ih =>
    simp only [encVarint]
    split
    · simp
    · simpa using ih (n / 128)

theorem encVarint_short {k n : Nat} (short : n < 128) : (encVarint (k + 1) n).length = 1 := by
  simp [encVarint, short]

theorem decVarint_sound {k width n : Nat} {bytes rest : List UInt8} (fits : width ≤ 7 * k)
    (last : 7 * k < width + 7) (h : decVarint k width bytes = some (n, rest)) :
    n < 2 ^ width ∧ (encVarint k n).length + rest.length ≤ bytes.length := by
  induction k generalizing width n bytes rest with
  | zero => simp [decVarint] at h
  | succ k ih =>
    cases bytes with
    | nil => simp [decVarint] at h
    | cons b bytes =>
      simp only [decVarint] at h
      split at h
      · rename_i short
        split at h
        · simp at h
        · rename_i allowed
          simp only [Option.some.injEq, Prod.mk.injEq] at h
          obtain ⟨rfl, rfl⟩ := h
          refine ⟨?_, by rw [encVarint_short short]; simp [Nat.add_comm]⟩
          by_cases final : k = 0
          · omega
          · have := Nat.pow_le_pow_right (show 0 < 2 by decide) (show 7 ≤ width by omega)
            omega
      · rename_i continued
        simp only [bind, Option.bind_eq_some_iff, Option.some.injEq, Prod.mk.injEq] at h
        obtain ⟨⟨high, middle⟩, read, rfl, rfl⟩ := h
        have room : k ≠ 0 := by
          rintro rfl
          simp [decVarint] at read
        obtain ⟨small, shorter⟩ := ih (by omega) (by omega) read
        have power : 2 ^ width = 128 * 2 ^ (width - 7) := by
          rw [show (128 : Nat) = 2 ^ 7 from rfl, ← Nat.pow_add]
          congr 1
          omega
        have byte := b.toNat_lt
        refine ⟨by omega, ?_⟩
        have length : (encVarint (k + 1) (b.toNat - 128 + 128 * high)).length ≤
            1 + (encVarint k high).length := by
          simp only [encVarint]
          split
          · simp
          · have : (b.toNat - 128 + 128 * high) / 128 = high := by omega
            rw [this, List.length_cons, Nat.add_comm]
        simp only [List.length_cons]
        omega

def varint (width k : Nat) (pos : 0 < width) (fits : width ≤ 7 * k)
    (last : 7 * k < width + 7) : Codec Nat where
  enc := encVarint k
  dec := decVarint k width
  Valid n := n < 2 ^ width
  round _ rest valid := decVarint_encVarint pos fits last valid rest
  sound _ _ _ h := decVarint_sound fits last h

def u16 : Codec UInt16 :=
  (varint 16 3 (by decide) (by decide) (by decide)).map UInt16.ofNat UInt16.toNat
    (fun b => UInt16.ofNat_toNat) (fun _ valid => by
      rw [UInt16.toNat_ofNat']
      exact Nat.mod_eq_of_lt valid)

def u32 : Codec UInt32 :=
  (varint 32 5 (by decide) (by decide) (by decide)).map UInt32.ofNat UInt32.toNat
    (fun b => UInt32.ofNat_toNat) (fun _ valid => by
      rw [UInt32.toNat_ofNat']
      exact Nat.mod_eq_of_lt valid)

def u64 : Codec UInt64 :=
  (varint 64 10 (by decide) (by decide) (by decide)).map UInt64.ofNat UInt64.toNat
    (fun b => UInt64.ofNat_toNat) (fun _ valid => by
      rw [UInt64.toNat_ofNat']
      exact Nat.mod_eq_of_lt valid)

/- A sequence: its length, then its values. -/
def seq (c : Codec α) : Codec (List α) where
  enc as := encVarint 10 as.length ++ encMany c as
  dec bytes := do
    let (n, bytes) ← decVarint 10 64 bytes
    decMany c n bytes
  Valid as := as.length < 2 ^ 64 ∧ ∀ a ∈ as, c.Valid a
  round as rest valid := by
    have length := decVarint_encVarint (k := 10) (by decide) (by decide) (by decide) valid.1
      (encMany c as ++ rest)
    simp only [List.append_assoc, length, bind, Option.bind]
    exact decMany_encMany c as rest valid.2
  sound bytes as rest h := by
    simp only [bind, Option.bind_eq_some_iff] at h
    obtain ⟨⟨n, middle⟩, count, h⟩ := h
    obtain ⟨small, shorterN⟩ := decVarint_sound (by decide) (by decide) count
    obtain ⟨rfl, valid, shorter⟩ := decMany_sound c h
    refine ⟨⟨small, valid⟩, ?_⟩
    simp only [List.length_append] at *
    omega

/- A variant: its index, as a varint of 32 bits, then its payload. -/
def tagged {n : Nat} (small : n ≤ 2 ^ 32) (P : Fin n → Type) (c : ∀ i, Codec (P i)) :
    Codec (Σ i, P i) where
  enc x := encVarint 5 x.1 ++ (c x.1).enc x.2
  dec bytes := do
    let (i, bytes) ← decVarint 5 32 bytes
    if h : i < n then
      let (payload, bytes) ← (c ⟨i, h⟩).dec bytes
      some (⟨⟨i, h⟩, payload⟩, bytes)
    else none
  Valid x := (c x.1).Valid x.2
  round x rest valid := by
    have tag := decVarint_encVarint (k := 5) (by decide) (by decide) (by decide)
      (Nat.lt_of_lt_of_le x.1.isLt small) ((c x.1).enc x.2 ++ rest)
    simp only [List.append_assoc, tag, bind, Option.bind, x.1.isLt, ↓reduceDIte, Fin.eta,
      (c x.1).round _ _ valid]
  sound bytes x rest h := by
    simp only [bind, Option.bind_eq_some_iff] at h
    obtain ⟨⟨i, middle⟩, tag, h⟩ := h
    obtain ⟨_, shorterTag⟩ := decVarint_sound (by decide) (by decide) tag
    dsimp only at h
    split at h
    · rename_i within
      simp only [Option.bind_eq_some_iff, Option.some.injEq, Prod.mk.injEq] at h
      obtain ⟨⟨payload, last⟩, read, rfl, rfl⟩ := h
      obtain ⟨valid, shorter⟩ := (c ⟨i, within⟩).sound _ _ _ read
      refine ⟨valid, ?_⟩
      simp only [List.length_append]
      omega
    · simp at h

/- k bytes, the least first. -/
def encLittle : Nat → Nat → List UInt8
  | 0, _ => []
  | k + 1, n => UInt8.ofNat (n % 256) :: encLittle k (n / 256)

def decLittle : Nat → List UInt8 → Option (Nat × List UInt8)
  | 0, bytes => some (0, bytes)
  | _ + 1, [] => none
  | k + 1, b :: bytes => do
    let (high, bytes) ← decLittle k bytes
    some (b.toNat + 256 * high, bytes)

@[simp] theorem encLittle_length (k n : Nat) : (encLittle k n).length = k := by
  induction k generalizing n with
  | zero => rfl
  | succ k ih => simp [encLittle, ih]

theorem decLittle_encLittle {k n : Nat} (small : n < 256 ^ k) (rest : List UInt8) :
    decLittle k (encLittle k n ++ rest) = some (n, rest) := by
  induction k generalizing n with
  | zero =>
    have : n = 0 := by simpa using small
    subst this
    rfl
  | succ k ih =>
    have byte : (UInt8.ofNat (n % 256)).toNat = n % 256 := by
      rw [UInt8.toNat_ofNat']
      omega
    have high := ih (n := n / 256) (by rw [Nat.pow_succ] at small; omega)
    simp only [encLittle, List.cons_append, decLittle, high, bind, Option.bind, byte]
    congr 2
    omega

theorem decLittle_sound {k n : Nat} {bytes rest : List UInt8}
    (h : decLittle k bytes = some (n, rest)) : n < 256 ^ k ∧ k + rest.length = bytes.length := by
  induction k generalizing n bytes rest with
  | zero =>
    simp only [decLittle, Option.some.injEq, Prod.mk.injEq] at h
    obtain ⟨rfl, rfl⟩ := h
    simp
  | succ k ih =>
    cases bytes with
    | nil => simp [decLittle] at h
    | cons b bytes =>
      simp only [decLittle, bind, Option.bind_eq_some_iff, Option.some.injEq, Prod.mk.injEq] at h
      obtain ⟨⟨high, middle⟩, read, rfl, rfl⟩ := h
      obtain ⟨small, length⟩ := ih read
      have byte := b.toNat_lt
      refine ⟨by rw [Nat.pow_succ]; omega, ?_⟩
      simp only [List.length_cons]
      omega

def little (k : Nat) : Codec Nat where
  enc := encLittle k
  dec := decLittle k
  Valid n := n < 256 ^ k
  round _ rest valid := decLittle_encLittle valid rest
  sound bytes n rest h := by
    obtain ⟨small, length⟩ := decLittle_sound h
    rw [encLittle_length]
    exact ⟨small, by omega⟩

/- An integer at its full width, which is how a float travels as well. -/
def fixed32 : Codec UInt32 :=
  (little 4).map UInt32.ofNat UInt32.toNat (fun b => UInt32.ofNat_toNat) (fun _ valid => by
    rw [UInt32.toNat_ofNat']
    exact Nat.mod_eq_of_lt valid)

def fixed64 : Codec UInt64 :=
  (little 8).map UInt64.ofNat UInt64.toNat (fun b => UInt64.ofNat_toNat) (fun _ valid => by
    rw [UInt64.toNat_ofNat']
    exact Nat.mod_eq_of_lt valid)

def bool : Codec Bool where
  enc b := [if b then 1 else 0]
  dec
    | 0 :: rest => some (false, rest)
    | 1 :: rest => some (true, rest)
    | _ => none
  Valid _ := True
  round b _ _ := by cases b <;> rfl
  sound bytes b rest h := by
    split at h
    · simp only [Option.some.injEq, Prod.mk.injEq] at h
      obtain ⟨rfl, rfl⟩ := h
      simp [Nat.add_comm]
    · simp only [Option.some.injEq, Prod.mk.injEq] at h
      obtain ⟨rfl, rfl⟩ := h
      simp [Nat.add_comm]
    · simp at h

/- A sequence of a fixed length, written without it. -/
def array (c : Codec α) (n : Nat) : Codec (Vector α n) where
  enc v := encMany c v.toList
  dec bytes := (decMany c n bytes).bind fun read =>
    if h : read.1.length = n then some (⟨read.1.toArray, by simpa using h⟩, read.2) else none
  Valid v := ∀ a ∈ v.toList, c.Valid a
  round v rest valid := by
    have read := decMany_encMany c v.toList rest valid
    rw [Vector.length_toList] at read
    rw [read]
    simp [Vector.toList]
  sound bytes v rest h := by
    simp only [Option.bind_eq_some_iff] at h
    obtain ⟨⟨as, last⟩, read, h⟩ := h
    dsimp only at h
    split at h
    · simp only [Option.some.injEq, Prod.mk.injEq] at h
      obtain ⟨rfl, rfl⟩ := h
      obtain ⟨_, valid, shorter⟩ := decMany_sound c read
      exact ⟨by simpa using valid, by simpa using shorter⟩
    · simp at h

/- How many bytes each takes. -/
theorem encMany_length {c : Codec α} {as : List α} {k : Nat}
    (each : ∀ a ∈ as, (c.enc a).length ≤ k) : (encMany c as).length ≤ as.length * k := by
  induction as with
  | nil => simp [encMany]
  | cons a as ih =>
    have first := each a List.mem_cons_self
    have others := ih fun b mem => each b (List.mem_cons_of_mem _ mem)
    simp only [encMany, List.flatMap_cons, List.length_append, List.length_cons,
      Nat.succ_mul] at others ⊢
    omega

theorem u16_length (n : UInt16) : (u16.enc n).length ≤ 3 := encVarint_length 3 n.toNat
theorem u32_length (n : UInt32) : (u32.enc n).length ≤ 5 := encVarint_length 5 n.toNat
theorem u64_length (n : UInt64) : (u64.enc n).length ≤ 10 := encVarint_length 10 n.toNat

theorem pair_length (c : Codec α) (d : Codec β) (x : α × β) :
    ((c.pair d).enc x).length = (c.enc x.1).length + (d.enc x.2).length := List.length_append

theorem seq_length {c : Codec α} {as : List α} {k : Nat} (short : as.length < 128)
    (each : ∀ a ∈ as, (c.enc a).length ≤ k) : (c.seq.enc as).length ≤ 1 + as.length * k := by
  have count : (encVarint 10 as.length).length = 1 := encVarint_short short
  have values := encMany_length each
  change (encVarint 10 as.length ++ encMany c as).length ≤ _
  rw [List.length_append]
  omega

/- A list with some of its values left out takes no more, its number being one byte either way. -/
theorem encMany_sublist {c : Codec α} {few many : List α} (sublist : few.Sublist many) :
    (encMany c few).length ≤ (encMany c many).length := by
  unfold encMany
  induction sublist with
  | slnil => exact Nat.le_refl _
  | cons a _ ih =>
    rw [List.flatMap_cons, List.length_append]
    omega
  | cons_cons a _ ih =>
    simp only [List.flatMap_cons, List.length_append]
    omega

theorem seq_sublist {c : Codec α} {few many : List α} (sublist : few.Sublist many)
    (short : many.length < 128) : (c.seq.enc few).length ≤ (c.seq.enc many).length := by
  have values := @encMany_sublist _ c _ _ sublist
  have count : (encVarint 10 many.length).length = 1 := encVarint_short short
  have fewer : (encVarint 10 few.length).length = 1 :=
    encVarint_short (Nat.lt_of_le_of_lt sublist.length_le short)
  change (encVarint 10 few.length ++ encMany c few).length ≤
    (encVarint 10 many.length ++ encMany c many).length
  simp only [List.length_append]
  omega

theorem array_length {c : Codec α} {n k : Nat} (v : Vector α n)
    (each : ∀ a ∈ v.toList, (c.enc a).length ≤ k) : ((c.array n).enc v).length ≤ n * k := by
  have := encMany_length each
  rwa [Vector.length_toList] at this

theorem tagged_length {n : Nat} (small : n ≤ 2 ^ 32) (P : Fin n → Type) (c : ∀ i, Codec (P i))
    (few : n ≤ 128) (x : Σ i, P i) :
    ((tagged small P c).enc x).length = 1 + ((c x.1).enc x.2).length := by
  have tag : (encVarint 5 x.1).length = 1 :=
    encVarint_short (Nat.lt_of_lt_of_le x.1.isLt few)
  change (encVarint 5 x.1 ++ (c x.1).enc x.2).length = _
  rw [List.length_append, tag]

end Codec
end Postcard
