/-!
# Columns and numerals of listings

Listings align numbers and names in columns and show addresses and hashes in hexadecimal.
-/

namespace CodeCache.Layout

def padLeft (width : Nat) (s : String) : String :=
  String.ofList (List.replicate (width - s.length) ' ') ++ s

def padRight (width : Nat) (s : String) : String :=
  s ++ String.ofList (List.replicate (width - s.length) ' ')

def hexDigits (n : Nat) : String :=
  String.ofList (Nat.toDigits 16 n)

def hex (n : Nat) : String :=
  "0x" ++ hexDigits n

def hexWide (digits n : Nat) : String :=
  let s := hexDigits n
  "0x" ++ String.ofList (List.replicate (digits - s.length) '0') ++ s

def lines (ls : List String) : String :=
  String.join (ls.map (· ++ "\n"))

def bracketed (ns : List Nat) : String :=
  "[" ++ String.intercalate ", " (ns.map toString) ++ "]"

end CodeCache.Layout
