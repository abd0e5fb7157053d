import CodeCache.Bytes.Basic

/-!
# Characters as UTF-8

Names and string constants are stored as UTF-8. Decoding accepts well-formed sequences only, and
says of a malformed one where it starts and how long its ill-formed start is, or that the bytes end
inside a sequence that was well formed so far.

`decode_encode` says that decoding undoes encoding.
-/

namespace CodeCache.Utf8

inductive Fault where
  | invalid (length index : Nat)
  | incomplete (index : Nat)
  deriving DecidableEq, Repr

def Fault.message : Fault → String
  | .invalid length index =>
    "invalid utf-8 sequence of " ++ toString length ++ " bytes from index " ++ toString index
  | .incomplete index => "incomplete utf-8 byte sequence from index " ++ toString index

def isTail (b : UInt8) : Bool := 0x80 ≤ b && b ≤ 0xBF

/-- The second bytes that may follow the first byte of a three-byte character: they exclude
overlong forms and surrogates. -/
def isSecondOfThree (lead b : UInt8) : Bool :=
  if lead == 0xE0 then 0xA0 ≤ b && b ≤ 0xBF
  else if lead == 0xED then 0x80 ≤ b && b ≤ 0x9F
  else isTail b

/-- The second bytes that may follow the first byte of a four-byte character: they exclude overlong
forms and numbers above the last code point. -/
def isSecondOfFour (lead b : UInt8) : Bool :=
  if lead == 0xF0 then 0x90 ≤ b && b ≤ 0xBF
  else if lead == 0xF4 then 0x80 ≤ b && b ≤ 0x8F
  else isTail b

def tailBits (b : UInt8) : Nat := b.toNat % 64

def decodeFrom (index : Nat) : Bytes → Except Fault (List Char)
  | [] => .ok []
  | a :: rest =>
    if a < 0x80 then
      (Char.ofNat a.toNat :: ·) <$> decodeFrom (index + 1) rest
    else if 0xC2 ≤ a && a ≤ 0xDF then
      match rest with
      | [] => .error (.incomplete index)
      | b :: rest =>
        if isTail b then
          (Char.ofNat (a.toNat % 32 * 64 + tailBits b) :: ·) <$> decodeFrom (index + 2) rest
        else .error (.invalid 1 index)
    else if 0xE0 ≤ a && a ≤ 0xEF then
      match rest with
      | [] => .error (.incomplete index)
      | [b] => .error (if isSecondOfThree a b then .incomplete index else .invalid 1 index)
      | b :: c :: rest =>
        if !isSecondOfThree a b then .error (.invalid 1 index)
        else if !isTail c then .error (.invalid 2 index)
        else
          (Char.ofNat (a.toNat % 16 * 4096 + tailBits b * 64 + tailBits c) :: ·)
            <$> decodeFrom (index + 3) rest
    else if 0xF0 ≤ a && a ≤ 0xF4 then
      match rest with
      | [] => .error (.incomplete index)
      | [b] => .error (if isSecondOfFour a b then .incomplete index else .invalid 1 index)
      | [b, c] =>
        .error (if !isSecondOfFour a b then .invalid 1 index
          else if isTail c then .incomplete index else .invalid 2 index)
      | b :: c :: d :: rest =>
        if !isSecondOfFour a b then .error (.invalid 1 index)
        else if !isTail c then .error (.invalid 2 index)
        else if !isTail d then .error (.invalid 3 index)
        else
          (Char.ofNat
              (a.toNat % 8 * 262144 + tailBits b * 4096 + tailBits c * 64 + tailBits d) :: ·)
            <$> decodeFrom (index + 4) rest
    else .error (.invalid 1 index)

def decode (bs : Bytes) : Except Fault String :=
  String.ofList <$> decodeFrom 0 bs

def encodeChar (c : Char) : Bytes :=
  let n := c.toNat
  if n < 0x80 then [UInt8.ofNat n]
  else if n < 0x800 then [UInt8.ofNat (0xC0 + n / 64), UInt8.ofNat (0x80 + n % 64)]
  else if n < 0x10000 then
    [UInt8.ofNat (0xE0 + n / 4096), UInt8.ofNat (0x80 + n / 64 % 64), UInt8.ofNat (0x80 + n % 64)]
  else
    [UInt8.ofNat (0xF0 + n / 262144), UInt8.ofNat (0x80 + n / 4096 % 64),
      UInt8.ofNat (0x80 + n / 64 % 64), UInt8.ofNat (0x80 + n % 64)]

def encode (s : String) : Bytes :=
  s.toList.flatMap encodeChar

/-! ## Decoding undoes encoding -/

theorem toNat_ofNat_of_lt {n : Nat} (h : n < 256) : (UInt8.ofNat n).toNat = n := by
  simp only [UInt8.toNat_ofNat']
  omega

theorem tailBits_ofNat (n : Nat) : tailBits (UInt8.ofNat (0x80 + n % 64)) = n % 64 := by
  rw [tailBits, toNat_ofNat_of_lt (by omega)]
  omega

theorem isTail_ofNat (n : Nat) : isTail (UInt8.ofNat (0x80 + n % 64)) = true := by
  have h : (UInt8.ofNat (0x80 + n % 64)).toNat = 0x80 + n % 64 := toNat_ofNat_of_lt (by omega)
  simp only [isTail, UInt8.le_iff_toNat_le, h, Bool.and_eq_true, decide_eq_true_eq,
    UInt8.reduceToNat]
  omega

theorem ofNat_between (lo hi : Nat) {n : Nat} (hlo : lo ≤ n) (hhi : n ≤ hi) (h : hi < 256) :
    UInt8.ofNat lo ≤ UInt8.ofNat n ∧ UInt8.ofNat n ≤ UInt8.ofNat hi := by
  rw [UInt8.le_iff_toNat_le, UInt8.le_iff_toNat_le, toNat_ofNat_of_lt (by omega : n < 256),
    toNat_ofNat_of_lt (by omega : lo < 256), toNat_ofNat_of_lt h]
  exact ⟨hlo, hhi⟩

theorem not_ofNat_lt (k : Nat) {n : Nat} (hk : k ≤ n) (h : n < 256) :
    ¬ UInt8.ofNat n < UInt8.ofNat k := by
  rw [UInt8.lt_iff_toNat_lt, toNat_ofNat_of_lt h, toNat_ofNat_of_lt (by omega : k < 256)]
  omega

theorem not_ofNat_le (k : Nat) {n : Nat} (hk : k < n) (h : n < 256) :
    ¬ UInt8.ofNat n ≤ UInt8.ofNat k := by
  rw [UInt8.le_iff_toNat_le, toNat_ofNat_of_lt h, toNat_ofNat_of_lt (by omega : k < 256)]
  omega

theorem isSecondOfThree_ofNat {n : Nat} (h1 : 0x800 ≤ n) (h2 : n < 0x10000)
    (h3 : n < 0xD800 ∨ 0xDFFF < n) :
    isSecondOfThree (UInt8.ofNat (0xE0 + n / 4096)) (UInt8.ofNat (0x80 + n / 64 % 64)) = true := by
  have ha : (UInt8.ofNat (0xE0 + n / 4096)).toNat = 0xE0 + n / 4096 := toNat_ofNat_of_lt (by omega)
  have hb : (UInt8.ofNat (0x80 + n / 64 % 64)).toNat = 0x80 + n / 64 % 64 :=
    toNat_ofNat_of_lt (by omega)
  simp only [isSecondOfThree, isTail, beq_iff_eq, ← UInt8.toNat_inj, UInt8.le_iff_toNat_le, ha, hb,
    UInt8.reduceToNat]
  split
  · simp only [Bool.and_eq_true, decide_eq_true_eq]
    omega
  · split <;> simp only [Bool.and_eq_true, decide_eq_true_eq] <;> omega

theorem isSecondOfFour_ofNat {n : Nat} (h1 : 0x10000 ≤ n) (h2 : n < 0x110000) :
    isSecondOfFour (UInt8.ofNat (0xF0 + n / 262144)) (UInt8.ofNat (0x80 + n / 4096 % 64))
      = true := by
  have ha : (UInt8.ofNat (0xF0 + n / 262144)).toNat = 0xF0 + n / 262144 :=
    toNat_ofNat_of_lt (by omega)
  have hb : (UInt8.ofNat (0x80 + n / 4096 % 64)).toNat = 0x80 + n / 4096 % 64 :=
    toNat_ofNat_of_lt (by omega)
  simp only [isSecondOfFour, isTail, beq_iff_eq, ← UInt8.toNat_inj, UInt8.le_iff_toNat_le, ha, hb,
    UInt8.reduceToNat]
  split
  · simp only [Bool.and_eq_true, decide_eq_true_eq]
    omega
  · split <;> simp only [Bool.and_eq_true, decide_eq_true_eq] <;> omega

theorem decodeFrom_encodeChar (c : Char) (index : Nat) {rest : Bytes} {cs : List Char}
    (ih : ∀ index, decodeFrom index rest = .ok cs) :
    decodeFrom index (encodeChar c ++ rest) = .ok (c :: cs) := by
  have valid : c.toNat < 0xD800 ∨ (0xDFFF < c.toNat ∧ c.toNat < 0x110000) := c.valid
  have back : Char.ofNat c.toNat = c := Char.ofNat_toNat c
  generalize hn : c.toNat = n at valid back
  unfold encodeChar
  simp only [hn]
  split
  · rename_i one
    have e : (UInt8.ofNat n).toNat = n := toNat_ofNat_of_lt (by omega)
    have lead : UInt8.ofNat n < 0x80 := by
      rw [UInt8.lt_iff_toNat_lt, e]
      exact one
    simp only [List.cons_append, List.nil_append]
    rw [decodeFrom.eq_def]
    simp only [lead, if_true, e, back, ih]
    rfl
  split
  · rename_i one two
    have e : (UInt8.ofNat (0xC0 + n / 64)).toNat = 0xC0 + n / 64 := toNat_ofNat_of_lt (by omega)
    have one : ¬ UInt8.ofNat (0xC0 + n / 64) < 0x80 := not_ofNat_lt 0x80 (by omega) (by omega)
    have two : 0xC2 ≤ UInt8.ofNat (0xC0 + n / 64) ∧ UInt8.ofNat (0xC0 + n / 64) ≤ 0xDF :=
      ofNat_between 0xC2 0xDF (by omega) (by omega) (by omega)
    have value : (0xC0 + n / 64) % 32 * 64 + n % 64 = n := by omega
    simp only [List.cons_append, List.nil_append]
    rw [decodeFrom.eq_def]
    simp only [one, two.1, two.2, decide_true, Bool.and_self, if_true, if_false, isTail_ofNat, e,
      tailBits_ofNat, value, back, ih]
    rfl
  split
  · rename_i one two three
    have e : (UInt8.ofNat (0xE0 + n / 4096)).toNat = 0xE0 + n / 4096 := toNat_ofNat_of_lt (by omega)
    have one : ¬ UInt8.ofNat (0xE0 + n / 4096) < 0x80 :=
      not_ofNat_lt 0x80 (by omega) (by omega)
    have two : ¬ UInt8.ofNat (0xE0 + n / 4096) ≤ 0xDF :=
      not_ofNat_le 0xDF (by omega) (by omega)
    have lead : 0xE0 ≤ UInt8.ofNat (0xE0 + n / 4096) ∧ UInt8.ofNat (0xE0 + n / 4096) ≤ 0xEF :=
      ofNat_between 0xE0 0xEF (by omega) (by omega) (by omega)
    have second := isSecondOfThree_ofNat (n := n) (by omega) (by omega) (by omega)
    have value : (0xE0 + n / 4096) % 16 * 4096 + n / 64 % 64 * 64 + n % 64 = n := by omega
    simp only [List.cons_append, List.nil_append]
    rw [decodeFrom.eq_def]
    simp only [one, two, lead.1, lead.2, second, decide_true, decide_false, Bool.and_false,
      Bool.and_self, Bool.not_true, Bool.false_eq_true, if_true, if_false, isTail_ofNat, e,
      tailBits_ofNat, value, back, ih]
    rfl
  · rename_i one two three
    have e : (UInt8.ofNat (0xF0 + n / 262144)).toNat = 0xF0 + n / 262144 :=
      toNat_ofNat_of_lt (by omega)
    have one : ¬ UInt8.ofNat (0xF0 + n / 262144) < 0x80 :=
      not_ofNat_lt 0x80 (by omega) (by omega)
    have two : ¬ UInt8.ofNat (0xF0 + n / 262144) ≤ 0xDF :=
      not_ofNat_le 0xDF (by omega) (by omega)
    have three : ¬ UInt8.ofNat (0xF0 + n / 262144) ≤ 0xEF :=
      not_ofNat_le 0xEF (by omega) (by omega)
    have lead : 0xF0 ≤ UInt8.ofNat (0xF0 + n / 262144) ∧ UInt8.ofNat (0xF0 + n / 262144) ≤ 0xF4 :=
      ofNat_between 0xF0 0xF4 (by omega) (by omega) (by omega)
    have second := isSecondOfFour_ofNat (n := n) (by omega) (by omega)
    have value : (0xF0 + n / 262144) % 8 * 262144 + n / 4096 % 64 * 4096 + n / 64 % 64 * 64 + n % 64
        = n := by omega
    simp only [List.cons_append, List.nil_append]
    rw [decodeFrom.eq_def]
    simp only [one, two, three, lead.1, lead.2, second, decide_true, decide_false, Bool.and_false,
      Bool.and_self, Bool.not_true, Bool.false_eq_true, if_true, if_false, isTail_ofNat, e,
      tailBits_ofNat, value, back, ih]
    rfl

theorem decodeFrom_flatMap_encodeChar (cs : List Char) (index : Nat) :
    decodeFrom index (cs.flatMap encodeChar) = .ok cs := by
  induction cs generalizing index with
  | nil => rfl
  | cons c cs ih => exact decodeFrom_encodeChar c index ih

theorem decode_encode (s : String) : decode (encode s) = .ok s := by
  rw [decode, encode, decodeFrom_flatMap_encodeChar]
  simp [Functor.map, Except.map]

end CodeCache.Utf8
