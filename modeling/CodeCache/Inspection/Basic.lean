import CodeCache.Bytes.Basic
import CodeCache.Text.Layout
import CodeCache.Text.Report

/-!
# Inspection

Tools look at the values of a cache through reports. Words of up to 32 bits are numbers; words of
64 bits are decimal texts, since a reader that keeps every number as a double holds whole numbers
exactly only up to `2 ^ 53`. Bytes are texts of hexadecimal digits, two a byte.
-/

namespace CodeCache

class ToReport (α : Type) where
  toReport : α → Report

export ToReport (toReport)

namespace Report

def hexDigits (bs : Bytes) : List Char :=
  bs.flatMap fun b => [Nat.digitChar (b.toNat / 16), Nat.digitChar (b.toNat % 16)]

def hex (bs : Bytes) : Report :=
  .text (String.ofList (hexDigits bs))

end Report

instance : ToReport Report where
  toReport r := r

instance : ToReport Bool where
  toReport b := .flag b

instance : ToReport Nat where
  toReport n := .number n

instance : ToReport UInt16 where
  toReport n := .number n.toNat

instance : ToReport UInt32 where
  toReport n := .number n.toNat

instance : ToReport Int32 where
  toReport n := .number n.toInt

instance : ToReport UInt64 where
  toReport n := .text (toString n.toNat)

instance : ToReport Int64 where
  toReport n := .text (toString n.toInt)

instance : ToReport String where
  toReport s := .text s

instance {α : Type} [ToReport α] : ToReport (Option α) where
  toReport
    | some a => toReport a
    | none => .null

instance {α : Type} [ToReport α] : ToReport (List α) where
  toReport as := .list (as.map toReport)

instance : ToReport Bytes where
  toReport bs := Report.hex bs

end CodeCache
