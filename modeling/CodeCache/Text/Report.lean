import CodeCache.Text.Layout

/-!
# Reports

Reports are printed as JSON values, one member or element a line, two spaces deeper at each level.
-/

namespace CodeCache

inductive Report where
  | null
  | flag (b : Bool)
  | number (n : Int)
  | text (s : String)
  | list (items : List Report)
  | object (members : List (String × Report))

namespace Report

def withMember (r : Report) (name : String) (value : Report) : Report :=
  match r with
  | .object members => .object ((name, value) :: members)
  | r => r

def escape (c : Char) : String :=
  match c with
  | '"' => "\\\""
  | '\\' => "\\\\"
  | '\n' => "\\n"
  | '\r' => "\\r"
  | '\t' => "\\t"
  | '\x08' => "\\b"
  | '\x0c' => "\\f"
  | c =>
    if c.toNat < 0x20 then
      "\\u00" ++ (if c.toNat < 0x10 then "0" else "") ++ Layout.hexDigits c.toNat
    else c.toString

def quote (s : String) : String :=
  "\"" ++ String.join (s.toList.map escape) ++ "\""

def newline (depth : Nat) : String :=
  "\n" ++ String.ofList (List.replicate (2 * depth) ' ')

def bracket (opening closing : String) (depth : Nat) (elements : List String) : String :=
  if elements.isEmpty then opening ++ closing
  else
    opening ++ String.intercalate "," (elements.map (newline (depth + 1) ++ ·))
      ++ newline depth ++ closing

mutual

def render (depth : Nat) : Report → String
  | .null => "null"
  | .flag b => toString b
  | .number n => toString n
  | .text s => quote s
  | .list items => bracket "[" "]" depth (renderItems (depth + 1) items)
  | .object members => bracket "\x7b" "\x7d" depth (renderMembers (depth + 1) members)

def renderItems (depth : Nat) : List Report → List String
  | [] => []
  | item :: items => render depth item :: renderItems depth items

def renderMembers (depth : Nat) : List (String × Report) → List String
  | [] => []
  | (name, value) :: members =>
    (quote name ++ ": " ++ render depth value) :: renderMembers depth members

end

def pretty (r : Report) : String :=
  render 0 r

/-! ## Reports on one line

Line protocols need a report without line feeds; nothing stands between its tokens then.
-/

mutual

def compact : Report → String
  | .null => "null"
  | .flag b => toString b
  | .number n => toString n
  | .text s => quote s
  | .list items => "[" ++ String.intercalate "," (compactItems items) ++ "]"
  | .object members => "\x7b" ++ String.intercalate "," (compactMembers members) ++ "\x7d"

def compactItems : List Report → List String
  | [] => []
  | item :: items => compact item :: compactItems items

def compactMembers : List (String × Report) → List String
  | [] => []
  | (name, value) :: members => (quote name ++ ":" ++ compact value) :: compactMembers members

end

end Report

end CodeCache
