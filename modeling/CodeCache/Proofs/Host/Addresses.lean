import CodeCache.Host.GlobalTable
import Mathlib.Algebra.Ring.Nat
import Mathlib.Data.List.Induction

/-!
# Addresses and their offsets

Saved code holds the kind and the offset of an address in place of the address. The
table of addresses is built by calls that each replace the range of one kind. An
offset has half the bits of an address, so the way from an address to its offset and
back ends elsewhere in a range that is too long for its offsets.
-/

namespace CodeCache

theorem findSome?_of_unique {α β : Type} {f : α → Option β} {as : List α}
    {a : α} {b : β} (ha : a ∈ as) (hf : f a = some b)
    (hother : ∀ c, c ≠ a → f c = none) :
    as.findSome? f = some b := by
  classical
  induction as with
  | nil => cases ha
  | cons c as ih =>
      rw [List.findSome?_cons]
      by_cases hc : c = a
      · rw [hc, hf]
      · rw [hother c hc]
        rcases List.mem_cons.mp ha with heq | hmem
        · exact absurd heq.symm hc
        · exact ih hmem

namespace GlobalKind

theorem mem_all (kind : GlobalKind) : kind ∈ all := by
  unfold all
  exact List.mem_map.mpr ⟨kind.code, List.mem_finRange _, rfl⟩

end GlobalKind

namespace AddressRange

def Holds (r : AddressRange) (address : UInt64) : Prop :=
  r.start ≤ address ∧ address < r.finish

def offsetOf (r : AddressRange) (address : UInt64) : UInt32 :=
  (address - r.start).toUInt32

variable {r : AddressRange} {address : UInt64}

theorem toNat_offsetOf (h : r.Holds address) :
    (r.offsetOf address).toNat = (address.toNat - r.start.toNat) % 2 ^ 32 := by
  unfold offsetOf
  rw [UInt64.toNat_toUInt32, UInt64.toNat_sub_of_le _ _ h.1]

theorem toNat_start_add_offsetOf (h : r.Holds address) :
    (r.start + (r.offsetOf address).toUInt64).toNat =
      r.start.toNat + (address.toNat - r.start.toNat) % 2 ^ 32 := by
  have hle := UInt64.le_iff_toNat_le.mp h.1
  have hoffset := toNat_offsetOf h
  have hmod := Nat.mod_le (address.toNat - r.start.toNat) (2 ^ 32)
  have hlt := address.toNat_lt
  rw [UInt64.toNat_add, UInt32.toNat_toUInt64, hoffset]
  exact Nat.mod_eq_of_lt (by omega)

theorem start_add_offsetOf_eq_iff (h : r.Holds address) :
    r.start + (r.offsetOf address).toUInt64 = address ↔
      address.toNat - r.start.toNat < 2 ^ 32 := by
  have hle := UInt64.le_iff_toNat_le.mp h.1
  have hmod := Nat.mod_lt (address.toNat - r.start.toNat) (show 0 < 2 ^ 32 by decide)
  rw [← UInt64.toNat_inj, toNat_start_add_offsetOf h]
  constructor
  · omega
  · intro hnear
    rw [Nat.mod_eq_of_lt hnear]
    omega

/-- Taken of the address that it leads to, an offset is the same again, even if the sum
overflows. -/
theorem offsetOf_start_add (offset : UInt32) :
    r.offsetOf (r.start + offset.toUInt64) = offset := by
  unfold offsetOf
  rw [UInt64.add_comm, UInt64.add_sub_cancel, UInt32.toUInt32_toUInt64]

theorem start_le_start_add_iff (offset : UInt32) :
    r.start ≤ r.start + offset.toUInt64 ↔ r.start.toNat + offset.toNat < 2 ^ 64 := by
  have hstart := r.start.toNat_lt
  have hoffset := offset.toNat_lt
  rw [UInt64.le_iff_toNat_le, UInt64.toNat_add, UInt32.toNat_toUInt64]
  omega

end AddressRange

namespace GlobalTable

variable {table : GlobalTable} {address : UInt64} {kind : GlobalKind} {offset : UInt32}

theorem offsetIn?_eq_some_iff {answer : GlobalKind × UInt32} :
    table.offsetIn? address kind = some answer ↔
      ∃ r, table.ranges kind = some r ∧ r.Holds address ∧
        answer = (kind, r.offsetOf address) := by
  unfold offsetIn? AddressRange.Holds AddressRange.offsetOf
  cases table.ranges kind with
  | none => simp
  | some r =>
      simp only [Bool.and_eq_true, decide_eq_true_eq, Option.ite_none_right_eq_some,
        Option.some.injEq, exists_eq_left']
      exact and_congr_right fun _ => eq_comm

theorem addressOf_eq_ok_iff :
    table.addressOf kind offset = .ok address ↔
      ∃ r, table.ranges kind = some r ∧ r.start + offset.toUInt64 = address ∧
        address < r.finish := by
  unfold addressOf
  cases table.ranges kind with
  | none => simp
  | some r =>
      simp only [Option.some.injEq, exists_eq_left']
      by_cases hbehind : r.finish ≤ r.start + offset.toUInt64
      · simp only [hbehind, if_true, reduceCtorEq, false_iff, not_and]
        intro heq
        rw [← heq]
        exact UInt64.not_lt.mpr hbehind
      · simp only [hbehind, if_false, Except.ok.injEq]
        constructor
        · intro heq
          exact ⟨heq, heq ▸ UInt64.not_le.mp hbehind⟩
        · exact And.left

theorem find?_eq_some {answer : GlobalKind × UInt32} (h : table.find? address = some answer) :
    ∃ r, table.ranges answer.1 = some r ∧ r.Holds address ∧
      answer.2 = r.offsetOf address := by
  obtain ⟨kind, -, hkind⟩ := List.exists_of_findSome?_eq_some h
  obtain ⟨r, hr, hholds, rfl⟩ := offsetIn?_eq_some_iff.mp hkind
  exact ⟨r, hr, hholds, rfl⟩

theorem addressOf_eq_ok_iff_of_find? (h : table.find? address = some (kind, offset)) :
    ∃ r, table.ranges kind = some r ∧ r.Holds address ∧
      (table.addressOf kind offset = .ok address ↔
        address.toNat - r.start.toNat < 2 ^ 32) := by
  obtain ⟨r, hr, hholds, rfl⟩ := find?_eq_some h
  refine ⟨r, hr, hholds, ?_⟩
  rw [addressOf_eq_ok_iff, ← AddressRange.start_add_offsetOf_eq_iff hholds]
  simp [hr, hholds.2]

def Disjoint (table : GlobalTable) : Prop :=
  ∀ ⦃kind kind' : GlobalKind⦄ ⦃r r' : AddressRange⦄ ⦃address : UInt64⦄,
    table.ranges kind = some r → table.ranges kind' = some r' →
    r.Holds address → r'.Holds address → kind = kind'

theorem Disjoint.find?_eq (hdisjoint : table.Disjoint) {r : AddressRange}
    (hr : table.ranges kind = some r) (hholds : r.Holds address) :
    table.find? address = some (kind, r.offsetOf address) := by
  apply findSome?_of_unique kind.mem_all
  · exact offsetIn?_eq_some_iff.mpr ⟨r, hr, hholds, rfl⟩
  · intro other hother
    apply Option.eq_none_iff_forall_ne_some.mpr
    intro answer hanswer
    obtain ⟨r', hr', hholds', -⟩ := offsetIn?_eq_some_iff.mp hanswer
    exact hother (hdisjoint hr' hr hholds' hholds)

theorem Disjoint.find?_eq_some_iff_of_addressOf (hdisjoint : table.Disjoint)
    (h : table.addressOf kind offset = .ok address) :
    ∃ r, table.ranges kind = some r ∧
      (table.find? address = some (kind, offset) ↔
        r.start.toNat + offset.toNat < 2 ^ 64) := by
  obtain ⟨r, hr, rfl, hlt⟩ := addressOf_eq_ok_iff.mp h
  refine ⟨r, hr, ?_⟩
  rw [← AddressRange.start_le_start_add_iff]
  constructor
  · intro hfind
    obtain ⟨r', hr', hholds, -⟩ := find?_eq_some hfind
    rw [hr] at hr'
    cases hr'
    exact hholds.1
  · intro hle
    rw [hdisjoint.find?_eq hr ⟨hle, hlt⟩, AddressRange.offsetOf_start_add]

end GlobalTable

/-!
## Tables built by calls
-/

inductive Registration where
  | word (kind : GlobalKind) (address : UInt64)
  | range (kind : GlobalKind) (address size : UInt64)
  deriving DecidableEq, Repr

namespace Registration

def kind : Registration → GlobalKind
  | word kind _ => kind
  | range kind _ _ => kind

def start : Registration → UInt64
  | word _ address => address
  | range _ address _ => address

def size : Registration → Nat
  | word _ _ => 8
  | range _ _ size => max size.toNat 1

def apply (table : GlobalTable) : Registration → GlobalTable
  | word kind address => table.register kind address
  | range kind address size => table.registerRange kind address size

def Fits (c : Registration) : Prop :=
  c.start.toNat + c.size < 2 ^ 64

instance : DecidablePred Fits := fun c =>
  inferInstanceAs (Decidable (c.start.toNat + c.size < 2 ^ 64))

def Covers (c : Registration) (address : UInt64) : Prop :=
  c.start.toNat ≤ address.toNat ∧ address.toNat < c.start.toNat + c.size

def toRange (c : Registration) : AddressRange where
  start := c.start
  finish := UInt64.ofNat (c.start.toNat + c.size)

variable {c : Registration} {calls : List Registration} {kind : GlobalKind}

theorem holds_toRange_iff (h : c.Fits) (address : UInt64) :
    c.toRange.Holds address ↔ c.Covers address := by
  unfold AddressRange.Holds Covers toRange
  rw [UInt64.le_iff_toNat_le, UInt64.lt_iff_toNat_lt, UInt64.toNat_ofNat_of_lt' h]

theorem saturatingAdd_eq {a b : UInt64} (h : a.toNat + b.toNat < 2 ^ 64) :
    GlobalTable.saturatingAdd a b = UInt64.ofNat (a.toNat + b.toNat) := by
  unfold GlobalTable.saturatingAdd
  rw [if_pos (show a.toNat + b.toNat < UInt64.size from h), UInt64.ofNat_add,
    UInt64.ofNat_toNat, UInt64.ofNat_toNat]

theorem ranges_apply (h : c.Fits) (table : GlobalTable) (kind : GlobalKind) :
    (c.apply table).ranges kind = if kind = c.kind then some c.toRange else table.ranges kind := by
  cases c with
  | word k address =>
      have heq := saturatingAdd_eq (a := address) (b := 8) h
      simp [apply, GlobalTable.register, GlobalTable.registerRange, Registration.kind, toRange,
        start, size, heq]
  | range k address length =>
      have hsize : (if length = 0 then 1 else length).toNat = max length.toNat 1 := by
        by_cases hzero : length = 0
        · rw [if_pos hzero, hzero]
          rfl
        · have hpos : 0 < length.toNat := by
            apply Nat.pos_of_ne_zero
            intro h
            exact hzero (UInt64.toNat_inj.mp h)
          rw [if_neg hzero]
          omega
      have heq := saturatingAdd_eq (a := address) (b := if length = 0 then 1 else length)
        (by rw [hsize]; exact h)
      rw [hsize] at heq
      simp [apply, GlobalTable.registerRange, Registration.kind, toRange, start, size, heq]

def current? (calls : List Registration) (kind : GlobalKind) : Option Registration :=
  calls.reverse.find? fun c => c.kind = kind

theorem current?_concat (calls : List Registration) (c : Registration) (kind : GlobalKind) :
    current? (calls ++ [c]) kind = if kind = c.kind then some c else current? calls kind := by
  unfold current?
  rw [List.reverse_concat, List.find?_cons]
  by_cases h : c.kind = kind
  · simp [h]
  · simp [h, Ne.symm h]

theorem mem_of_current? (h : current? calls kind = some c) : c ∈ calls :=
  List.mem_reverse.mp (List.mem_of_find?_eq_some h)

theorem kind_of_current? (h : current? calls kind = some c) : c.kind = kind := by
  simpa using List.find?_some h

end Registration

namespace GlobalTable

def built (calls : List Registration) : GlobalTable :=
  calls.foldl Registration.apply {}

theorem ranges_built {calls : List Registration} (hfits : ∀ c ∈ calls, c.Fits)
    (kind : GlobalKind) :
    (built calls).ranges kind = (Registration.current? calls kind).map (·.toRange) := by
  induction calls using List.reverseRecOn with
  | nil => rfl
  | append_singleton calls c ih =>
      have hlast := hfits c (by simp)
      have hbefore := ih fun c' hc' => hfits c' (by simp [hc'])
      have hstep : built (calls ++ [c]) = c.apply (built calls) := List.foldl_append ..
      rw [Registration.current?_concat, hstep, Registration.ranges_apply hlast, hbefore]
      by_cases h : kind = c.kind
      · simp [h]
      · simp [h]

theorem exists_current_of_ranges {calls : List Registration} (hfits : ∀ c ∈ calls, c.Fits)
    {kind : GlobalKind} {r : AddressRange} (hr : (built calls).ranges kind = some r) :
    ∃ c, Registration.current? calls kind = some c ∧ c.Fits ∧ c.toRange = r := by
  rw [ranges_built hfits, Option.map_eq_some_iff] at hr
  obtain ⟨c, hc, hrange⟩ := hr
  exact ⟨c, hc, hfits c (Registration.mem_of_current? hc), hrange⟩

end GlobalTable

namespace Registration

/-- No address is covered for two kinds. -/
def Apart (calls : List Registration) : Prop :=
  ∀ c c' kind kind' address, current? calls kind = some c → current? calls kind' = some c' →
    c.Covers address → c'.Covers address → kind = kind'

variable {calls : List Registration}

theorem Apart.disjoint (h : Apart calls) (hfits : ∀ c ∈ calls, c.Fits) :
    (GlobalTable.built calls).Disjoint := by
  intro kind kind' r r' address hr hr' hholds hholds'
  obtain ⟨c, hc, hcfits, rfl⟩ := GlobalTable.exists_current_of_ranges hfits hr
  obtain ⟨c', hc', hcfits', rfl⟩ := GlobalTable.exists_current_of_ranges hfits hr'
  apply h c c' kind kind' address hc hc'
  · exact (holds_toRange_iff hcfits address).mp hholds
  · exact (holds_toRange_iff hcfits' address).mp hholds'

end Registration

namespace GlobalTable

/-- The way from an address to its offset and back leads to the same address exactly
if the distance from the start of the range is an offset. The way from an offset to
its address and back, in a table of disjoint ranges, leads to the same offset exactly
if the address does not overflow. -/
theorem address_survives_iff {calls : List Registration} (hfits : ∀ c ∈ calls, c.Fits) :
    (∀ address kind offset, (built calls).find? address = some (kind, offset) →
      ∃ c, Registration.current? calls kind = some c ∧ c.Covers address ∧
        ((built calls).addressOf kind offset = .ok address ↔
          address.toNat - c.start.toNat < 2 ^ 32)) ∧
      (Registration.Apart calls → ∀ kind offset address,
        (built calls).addressOf kind offset = .ok address →
        ∃ c, Registration.current? calls kind = some c ∧
          ((built calls).find? address = some (kind, offset) ↔
            c.start.toNat + offset.toNat < 2 ^ 64)) := by
  constructor
  · intro address kind offset hfind
    obtain ⟨r, hr, hholds, hiff⟩ := addressOf_eq_ok_iff_of_find? hfind
    obtain ⟨c, hc, hcfits, rfl⟩ := exists_current_of_ranges hfits hr
    exact ⟨c, hc, (Registration.holds_toRange_iff hcfits address).mp hholds, hiff⟩
  · intro hapart kind offset address haddress
    obtain ⟨r, hr, hiff⟩ := (hapart.disjoint hfits).find?_eq_some_iff_of_addressOf haddress
    obtain ⟨c, hc, -, rfl⟩ := exists_current_of_ranges hfits hr
    exact ⟨c, hc, hiff⟩

namespace Sample

def topAddress : GlobalKind := ⟨1, by decide⟩

def calls : List Registration :=
  [.word .pollingPage 0, .range topAddress 0x10000 0x200000000, .word .pollingPage 0x1000]

theorem calls_fit : ∀ c ∈ calls, c.Fits := by
  decide

theorem kind_eq_of_covers {c : Registration} (hc : c ∈ calls) {address : UInt64}
    (h : c.Covers address) :
    c.kind = if 0x10000 ≤ address.toNat then topAddress else .pollingPage := by
  simp only [calls, List.mem_cons, List.not_mem_nil, or_false] at hc
  rcases hc with rfl | rfl | rfl
  · have hbelow : address.toNat < 8 := h.2
    exact (if_neg (by omega)).symm
  · have habove : 0x10000 ≤ address.toNat := h.1
    exact (if_pos habove).symm
  · have hbelow : address.toNat < 0x1008 := h.2
    exact (if_neg (by omega)).symm

theorem calls_apart : Registration.Apart calls := by
  intro c c' kind kind' address hc hc' hcovers hcovers'
  rw [← Registration.kind_of_current? hc, ← Registration.kind_of_current? hc',
    kind_eq_of_covers (Registration.mem_of_current? hc) hcovers,
    kind_eq_of_covers (Registration.mem_of_current? hc') hcovers']

end Sample

theorem near_address_survives :
    (built Sample.calls).find? 0x10000ffff = some (Sample.topAddress, 0xffffffff) ∧
      (built Sample.calls).addressOf Sample.topAddress 0xffffffff = .ok 0x10000ffff := by
  obtain ⟨hback, hforth⟩ := address_survives_iff Sample.calls_fit
  have haddress : (built Sample.calls).addressOf Sample.topAddress 0xffffffff =
      .ok 0x10000ffff := rfl
  have hcurrent : Registration.current? Sample.calls Sample.topAddress =
      some (.range Sample.topAddress 0x10000 0x200000000) := by decide
  constructor
  · obtain ⟨c, hc, hiff⟩ := hforth Sample.calls_apart _ _ _ haddress
    cases Option.some.inj (hc.symm.trans hcurrent)
    exact hiff.mpr (by decide)
  · obtain ⟨c, hc, -, hiff⟩ := hback 0x10000ffff Sample.topAddress 0xffffffff (by decide)
    cases Option.some.inj (hc.symm.trans hcurrent)
    exact hiff.mpr (by decide)

theorem far_address_lost :
    (∀ c ∈ Sample.calls, c.Fits) ∧ Registration.Apart Sample.calls ∧
      (built Sample.calls).find? 0x100010005 = some (Sample.topAddress, 5) ∧
      (built Sample.calls).addressOf Sample.topAddress 5 = .ok 0x10005 :=
  ⟨Sample.calls_fit, Sample.calls_apart, by decide, rfl⟩

end GlobalTable

end CodeCache
