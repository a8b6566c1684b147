import Mathlib.Data.List.Basic
import Mathlib.Data.List.Induction
import Mathlib.Tactic.NormNum

namespace Prismoire.Lib.Cbor

open List Option

/-- A data item, as a reader of the format returns it; a float by its bits. -/
inductive Value
  | integer (n : Int)
  | bytes (b : List UInt8)
  | float (bits : UInt64)
  | text (s : String)
  | bool (b : Bool)
  | null
  | tag (number : Nat) (item : Value)
  | array (items : List Value)
  | map (entries : List (Value × Value))

/-- The items with neither floats nor tags that a 64-bit head can announce, nested less deep than a
bound. -/
def Plain : Nat → Value → Prop
  | 0, _ => False
  | _ + 1, .integer n => -2 ^ 64 ≤ n ∧ n < 2 ^ 64
  | _ + 1, .bytes b => b.length < 2 ^ 64
  | _ + 1, .text s => s.utf8ByteSize < 2 ^ 64
  | _ + 1, .bool _ => True
  | _ + 1, .null => True
  | depth + 1, .array items => items.length < 2 ^ 64 ∧ ∀ item ∈ items, Plain depth item
  | depth + 1, .map entries => entries.length < 2 ^ 64 ∧ ∀ entry ∈ entries, Plain depth entry.1 ∧ Plain depth entry.2
  | _ + 1, .float _ => False
  | _ + 1, .tag _ _ => False

theorem Plain.mono {depth more : Nat} (le : depth ≤ more) {value : Value} (plain : Plain depth value) :
    Plain more value := by
  induction depth generalizing more value with
  | zero => exact absurd plain (by simp [Plain])
  | succ depth ih =>
    obtain ⟨more, rfl⟩ : ∃ less, more = less + 1 := ⟨more - 1, by omega⟩
    cases value with
    | array items => exact ⟨plain.1, fun item mem => ih (by omega) (plain.2 item mem)⟩
    | map entries =>
      refine ⟨plain.1, ?_⟩
      intro entry mem
      exact ⟨ih (by omega) (plain.2 entry mem).1, ih (by omega) (plain.2 entry mem).2⟩
    | integer n => exact plain
    | bytes b => exact plain
    | text s => exact plain
    | bool b => trivial
    | null => trivial
    | float bits => exact plain
    | tag number item => exact plain

/-- The last `n` bytes of a number, most significant first. -/
def beBytes : Nat → Nat → List UInt8
  | 0, _ => []
  | n + 1, x => beBytes n (x / 256) ++ [UInt8.ofNat (x % 256)]

def ofBe (bytes : List UInt8) : Nat :=
  bytes.foldl (fun x byte => 256 * x + byte.toNat) 0

@[simp] theorem length_beBytes (n x : Nat) : (beBytes n x).length = n := by
  induction n generalizing x with
  | zero => rfl
  | succ n ih => simp [beBytes, ih]

theorem ofBe_beBytes (n x : Nat) : ofBe (beBytes n x) = x % 256 ^ n := by
  induction n generalizing x with
  | zero => simp [beBytes, ofBe, Nat.mod_one]
  | succ n ih =>
    have last : (UInt8.ofNat (x % 256)).toNat = x % 256 := by
      rw [UInt8.toNat_ofNat']
      omega
    have front := ih (x / 256)
    rw [ofBe] at front
    rw [beBytes, ofBe, foldl_append, front, foldl_cons, foldl_nil, last, Nat.pow_succ', Nat.mod_mul]
    omega

theorem ofBe_snoc (bytes : List UInt8) (byte : UInt8) : ofBe (bytes ++ [byte]) = 256 * ofBe bytes + byte.toNat := by
  rw [ofBe, foldl_append]
  rfl

theorem ofBe_lt (bytes : List UInt8) : ofBe bytes < 256 ^ bytes.length := by
  induction bytes using List.reverseRecOn with
  | nil => simp [ofBe]
  | append_singleton bytes byte ih =>
    have low := byte.toNat_lt
    rw [ofBe_snoc, length_append, length_singleton, Nat.pow_succ]
    omega

theorem beBytes_ofBe (bytes : List UInt8) : beBytes bytes.length (ofBe bytes) = bytes := by
  induction bytes using List.reverseRecOn with
  | nil => rfl
  | append_singleton bytes byte ih =>
    have low := byte.toNat_lt
    have quotient : ofBe (bytes ++ [byte]) / 256 = ofBe bytes := by
      rw [ofBe_snoc]
      omega
    have remainder : ofBe (bytes ++ [byte]) % 256 = byte.toNat := by
      rw [ofBe_snoc]
      omega
    rw [length_append, length_singleton, beBytes, quotient, remainder, ih, UInt8.ofNat_toNat]

/-- A number of so many bytes from the front. -/
def readBe (n : Nat) (input : List UInt8) : Option (Nat × List UInt8) :=
  if n ≤ input.length then some (ofBe (input.take n), input.drop n) else none

theorem readBe_append {n x : Nat} (fits : x < 256 ^ n) (rest : List UInt8) :
    readBe n (beBytes n x ++ rest) = some (x, rest) := by
  have long : n ≤ (beBytes n x ++ rest).length := by simp
  have front : (beBytes n x ++ rest).take n = beBytes n x := take_left' (length_beBytes n x)
  have back : (beBytes n x ++ rest).drop n = rest := drop_left' (length_beBytes n x)
  rw [readBe, if_pos long, front, back, ofBe_beBytes, Nat.mod_eq_of_lt fits]

/-- The first byte of an item and its argument, in the shortest form. -/
def head (major n : Nat) : List UInt8 :=
  if n < 24 then [UInt8.ofNat (32 * major + n)]
  else if n < 2 ^ 8 then UInt8.ofNat (32 * major + 24) :: beBytes 1 n
  else if n < 2 ^ 16 then UInt8.ofNat (32 * major + 25) :: beBytes 2 n
  else if n < 2 ^ 32 then UInt8.ofNat (32 * major + 26) :: beBytes 4 n
  else UInt8.ofNat (32 * major + 27) :: beBytes 8 n

def readHead : List UInt8 → Option (Nat × Nat × List UInt8)
  | [] => none
  | first :: rest =>
    let major := first.toNat / 32
    let info := first.toNat % 32
    if info < 24 then some (major, info, rest)
    else if info < 28 then (readBe (2 ^ (info - 24)) rest).map fun (n, rest) => (major, n, rest)
    else none

theorem readHead_long {major size n : Nat} (isMajor : major < 8) (isSize : size < 4) (fits : n < 256 ^ 2 ^ size)
    (rest : List UInt8) :
    readHead (UInt8.ofNat (32 * major + (24 + size)) :: beBytes (2 ^ size) n ++ rest) = some (major, n, rest) := by
  have first : (UInt8.ofNat (32 * major + (24 + size))).toNat = 32 * major + (24 + size) := by
    rw [UInt8.toNat_ofNat']
    omega
  have isInfo : (32 * major + (24 + size)) % 32 = 24 + size := by omega
  have top : (32 * major + (24 + size)) / 32 = major := by omega
  rw [cons_append, readHead]
  simp only [first, isInfo, top]
  rw [if_neg (by omega), if_pos (by omega), Nat.add_sub_cancel_left, readBe_append fits]
  rfl

theorem readHead_head {major n : Nat} (isMajor : major < 8) (fits : n < 2 ^ 64) (rest : List UInt8) :
    readHead (head major n ++ rest) = some (major, n, rest) := by
  rw [head]
  split
  · rename_i small
    have first : (UInt8.ofNat (32 * major + n)).toNat = 32 * major + n := by
      rw [UInt8.toNat_ofNat']
      omega
    have isInfo : (32 * major + n) % 32 = n := by omega
    have top : (32 * major + n) / 32 = major := by omega
    rw [cons_append, nil_append, readHead]
    simp only [first, isInfo, top, small, if_true]
  · split
    · exact @readHead_long major 0 n isMajor (by omega) (by norm_num; omega) rest
    · split
      · exact @readHead_long major 1 n isMajor (by omega) (by norm_num; omega) rest
      · split
        · exact @readHead_long major 2 n isMajor (by omega) (by norm_num; omega) rest
        · exact @readHead_long major 3 n isMajor (by omega) (by norm_num; omega) rest

theorem compare_append {front front' : List UInt8} (long : front.length = front'.length) (back back' : List UInt8) :
    compare (front ++ back) (front' ++ back') = (compare front front').then (compare back back') := by
  induction front generalizing front' with
  | nil =>
    cases eq_nil_of_length_eq_zero long.symm
    rfl
  | cons byte front ih =>
    obtain ⟨byte', front', rfl⟩ := exists_cons_of_length_eq_add_one long.symm
    have rest := ih (Nat.succ.inj long)
    simp only [cons_append, List.compare_cons_cons, rest, Ordering.then_assoc]

theorem compare_ofNat {m n : Nat} (low : m < 256) (low' : n < 256) :
    compare (UInt8.ofNat m) (UInt8.ofNat n) = compare m n := by
  have value : (UInt8.ofNat m).toNat = m := Nat.mod_eq_of_lt low
  have value' : (UInt8.ofNat n).toNat = n := Nat.mod_eq_of_lt low'
  simp only [compare, compareOfLessAndEq, UInt8.lt_iff_toNat_lt, ← UInt8.toNat_inj, value, value']

theorem compare_beBytes {size m n : Nat} (fits : m < 256 ^ size) (fits' : n < 256 ^ size) :
    compare (beBytes size m) (beBytes size n) = compare m n := by
  induction size generalizing m n with
  | zero =>
    obtain rfl : m = n := by omega
    simp
  | succ size ih =>
    have rest := @ih (m / 256) (n / 256) (by omega) (by omega)
    have last := compare_ofNat (Nat.mod_lt m (by omega : 0 < 256)) (Nat.mod_lt n (by omega : 0 < 256))
    rw [beBytes, beBytes, compare_append (by simp), rest, List.compare_cons_cons, last, List.compare_nil_nil,
      Ordering.then_eq]
    rcases Nat.lt_trichotomy (m / 256) (n / 256) with less | same | more
    · rw [compare_lt_iff_lt.mpr less, compare_lt_iff_lt.mpr (by omega : m < n)]
      rfl
    · rw [same, compare_eq_iff_eq.mpr rfl, Ordering.eq_then]
      simp only [compare, compareOfLessAndEq]
      congr 1 <;> [skip; congr 1] <;> apply propext <;> omega
    · rw [compare_gt_iff_gt.mpr more, compare_gt_iff_gt.mpr (by omega : n < m)]
      rfl

/-- The low bits of the first byte, which grow with the argument. -/
def info (n : Nat) : Nat :=
  if n < 24 then n else if n < 2 ^ 8 then 24 else if n < 2 ^ 16 then 25 else if n < 2 ^ 32 then 26 else 27

theorem head_eq (major n : Nat) :
    head major n = UInt8.ofNat (32 * major + info n) :: if n < 24 then [] else beBytes (2 ^ (info n - 24)) n := by
  unfold head info
  split_ifs <;> rfl

theorem info_mono {m n : Nat} (le : m ≤ n) : info m ≤ info n := by
  unfold info
  split_ifs <;> omega

theorem info_fits {n : Nat} (fits : n < 2 ^ 64) (long : ¬ n < 24) : n < 256 ^ 2 ^ (info n - 24) := by
  unfold info
  split_ifs <;> norm_num <;> omega

theorem info_small {m n : Nat} (small : m < 24) (same : info m = info n) : m = n := by
  unfold info at same
  split_ifs at same <;> omega

/-- The shorter of two items of one kind comes first, whatever follows the heads. -/
theorem compare_head {major m n : Nat} (isMajor : major < 8) (fits : m < 2 ^ 64) (fits' : n < 2 ^ 64)
    (rest rest' : List UInt8) :
    compare (head major m ++ rest) (head major n ++ rest') = (compare m n).then (compare rest rest') := by
  have below (k : Nat) : info k < 28 := by
    unfold info
    split_ifs <;> omega
  have first := compare_ofNat (by have := below m; omega : 32 * major + info m < 256)
    (by have := below n; omega : 32 * major + info n < 256)
  simp only [head_eq, cons_append, List.compare_cons_cons, first]
  rcases Nat.lt_trichotomy (info m) (info n) with less | same | more
  · have order : m < n := by
      by_contra le
      exact absurd (info_mono (Nat.le_of_not_lt le)) (by omega)
    rw [compare_lt_iff_lt.mpr (by omega : 32 * major + info m < _), compare_lt_iff_lt.mpr order]
    rfl
  · rw [same, compare_eq_iff_eq.mpr rfl, Ordering.eq_then]
    by_cases small : m < 24
    · obtain rfl : m = n := info_small small same
      simp [small]
    · have large : ¬ n < 24 := fun small' => small (info_small small' same.symm ▸ small')
      rw [if_neg small, if_neg large, compare_append (by simp), compare_beBytes _ _]
      · exact same ▸ info_fits fits small
      · exact info_fits fits' large
  · have order : n < m := by
      by_contra le
      exact absurd (info_mono (Nat.le_of_not_lt le)) (by omega)
    rw [compare_gt_iff_gt.mpr (by omega : 32 * major + info n < _), compare_gt_iff_gt.mpr order]
    rfl

variable {α : Type} {read : List UInt8 → Option (α × List UInt8)} {write : α → List UInt8}

def readMany (read : List UInt8 → Option (α × List UInt8)) : Nat → List UInt8 → Option (List α × List UInt8)
  | 0, input => some ([], input)
  | n + 1, input =>
    match read input with
    | none => none
    | some (item, rest) => (readMany read n rest).map fun (items, rest) => (item :: items, rest)

def readPair (read : List UInt8 → Option (α × List UInt8)) (input : List UInt8) : Option ((α × α) × List UInt8) :=
  match read input with
  | none => none
  | some (first, rest) => (read rest).map fun (second, rest) => ((first, second), rest)

theorem readMany_flatMap {items : List α}
    (reads : ∀ item ∈ items, ∀ rest, read (write item ++ rest) = some (item, rest)) (rest : List UInt8) :
    readMany read items.length (items.flatMap write ++ rest) = some (items, rest) := by
  induction items with
  | nil => rfl
  | cons item items ih =>
    have later := ih fun other mem => reads other (mem_cons_of_mem _ mem)
    rw [flatMap_cons, append_assoc, length_cons, readMany, reads item (mem_cons_self ..)]
    simp only [later, map_some]

theorem readPair_append {pair : α × α}
    (first : ∀ rest, read (write pair.1 ++ rest) = some (pair.1, rest))
    (second : ∀ rest, read (write pair.2 ++ rest) = some (pair.2, rest)) (rest : List UInt8) :
    readPair read (write pair.1 ++ write pair.2 ++ rest) = some (pair, rest) := by
  rw [append_assoc, readPair, first]
  simp only [second, map_some]

def utf8 (s : String) : List UInt8 :=
  s.toByteArray.data.toList

def ofUtf8 (bytes : List UInt8) : Option String :=
  String.fromUTF8? ⟨bytes.toArray⟩

theorem length_utf8 (s : String) : (utf8 s).length = s.utf8ByteSize := rfl

theorem ofUtf8_utf8 (s : String) : ofUtf8 (utf8 s) = some s := by
  have same : (⟨(utf8 s).toArray⟩ : ByteArray) = s.toByteArray := by
    simp [utf8]
  rw [ofUtf8, same, String.fromUTF8?, dif_pos s.isValidUTF8]
  rfl

/-- Definite lengths and shortest heads, for items with neither floats nor tags. -/
def encode : Nat → Value → List UInt8
  | 0, _ => []
  | _ + 1, .integer n => if 0 ≤ n then head 0 n.toNat else head 1 (-1 - n).toNat
  | _ + 1, .bytes b => head 2 b.length ++ b
  | _ + 1, .text s => head 3 s.utf8ByteSize ++ utf8 s
  | depth + 1, .array items => head 4 items.length ++ items.flatMap (encode depth)
  | depth + 1, .map entries =>
    head 5 entries.length ++ entries.flatMap fun entry => encode depth entry.1 ++ encode depth entry.2
  | _ + 1, .bool b => head 7 (if b then 21 else 20)
  | _ + 1, .null => head 7 22
  | _ + 1, .float _ => []
  | _ + 1, .tag _ _ => []

def decode : Nat → List UInt8 → Option (Value × List UInt8)
  | 0, _ => none
  | depth + 1, input =>
    match readHead input with
    | some (0, n, rest) => some (.integer n, rest)
    | some (1, n, rest) => some (.integer (-1 - n), rest)
    | some (2, n, rest) => if n ≤ rest.length then some (.bytes (rest.take n), rest.drop n) else none
    | some (3, n, rest) =>
      if n ≤ rest.length then (ofUtf8 (rest.take n)).map fun s => (.text s, rest.drop n) else none
    | some (4, n, rest) => (readMany (decode depth) n rest).map fun (items, rest) => (.array items, rest)
    | some (5, n, rest) => (readMany (readPair (decode depth)) n rest).map fun (entries, rest) => (.map entries, rest)
    | some (7, 20, rest) => some (.bool false, rest)
    | some (7, 21, rest) => some (.bool true, rest)
    | some (7, 22, rest) => some (.null, rest)
    | _ => none

/-- Every plain item is read back, and what follows it is left. -/
theorem decode_encode {depth : Nat} {value : Value} (plain : Plain depth value) (rest : List UInt8) :
    decode depth (encode depth value ++ rest) = some (value, rest) := by
  induction depth generalizing value rest with
  | zero => exact absurd plain (by simp [Plain])
  | succ depth ih =>
    cases value with
    | integer n =>
      obtain ⟨low, high⟩ : -2 ^ 64 ≤ n ∧ n < 2 ^ 64 := plain
      by_cases sign : 0 ≤ n
      · rw [encode, if_pos sign, decode, readHead_head (by omega) (by omega)]
        simp only [Int.toNat_of_nonneg sign]
      · rw [encode, if_neg sign, decode, readHead_head (by omega) (by omega)]
        simp only [some.injEq, Prod.mk.injEq, Value.integer.injEq, and_true]
        omega
    | bytes b =>
      rw [encode, append_assoc, decode, readHead_head (by omega) plain]
      simp
    | text s =>
      rw [encode, append_assoc, decode, readHead_head (by omega) plain]
      simp [← length_utf8, ofUtf8_utf8]
    | array items =>
      rw [encode, append_assoc, decode, readHead_head (by omega) plain.1]
      simp only [readMany_flatMap fun item mem rest => ih (plain.2 item mem) rest, map_some]
    | map entries =>
      have reads : ∀ entry ∈ entries, ∀ rest, readPair (decode depth)
          (encode depth entry.1 ++ encode depth entry.2 ++ rest) = some (entry, rest) := by
        intro entry mem rest
        exact readPair_append (ih (plain.2 entry mem).1) (ih (plain.2 entry mem).2) rest
      rw [encode, append_assoc, decode, readHead_head (by omega) plain.1]
      simp only [readMany_flatMap reads, map_some]
    | bool b =>
      rw [encode, decode, readHead_head (by omega) (by split <;> omega)]
      cases b <;> rfl
    | null =>
      rw [encode, decode, readHead_head (by omega) (by omega)]
      rfl
    | float bits => exact absurd plain (by simp [Plain])
    | tag number item => exact absurd plain (by simp [Plain])

end Prismoire.Lib.Cbor
