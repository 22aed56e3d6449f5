set_option autoImplicit false

/-!
JSON values as they are written, and their text. A string that is no text, because an escape stands
for half a surrogate pair or its bytes are not UTF-8, is kept as `none`; numbers keep their spelling.
The text is either compact or has every item on a line of its own, two columns further to the right
than what contains it.
-/

namespace AddressedForms

inductive Json where
  | null
  | bool (value : Bool)
  | number (spelling : List UInt8)
  | string (text : Option String)
  | array (items : List Json)
  | object (members : List (Option String × Json))
  deriving Inhabited

namespace Json

def controlText (c : Char) : String :=
  "\\u00" ++ String.ofList [(c.toNat/16).digitChar,(c.toNat%16).digitChar]

/-- Only quotes, backslashes and control characters are escaped. -/
def escape (c : Char) : String :=
  if c = '"' then "\\\""
  else if c = '\\' then "\\\\"
  else if c = '\x08' then "\\b"
  else if c = '\t' then "\\t"
  else if c = '\n' then "\\n"
  else if c = '\x0c' then "\\f"
  else if c = '\r' then "\\r"
  else if c.toNat < 32 then controlText c
  else c.toString

def escapeAll : List Char → String
  | [] => ""
  | c :: cs => escape c ++ escapeAll cs

def quote (s : String) : String := "\"" ++ escapeAll s.toList ++ "\""

def spelled (bs : List UInt8) : String := String.ofList (bs.map (fun b => Char.ofNat b.toNat))

mutual
def compact : Json → String
  | .null => "null"
  | .bool true => "true"
  | .bool false => "false"
  | .number bs => spelled bs
  | .string s => quote (s.getD "")
  | .array [] => "[]"
  | .array (x :: xs) => "[" ++ x.compact ++ compactItems xs ++ "]"
  | .object [] => "\x7b\x7d"
  | .object ((k,x) :: ms) =>
    "\x7b" ++ quote (k.getD "") ++ ":" ++ x.compact ++ compactMembers ms ++ "\x7d"
def compactItems : List Json → String
  | [] => ""
  | x :: xs => "," ++ x.compact ++ compactItems xs
def compactMembers : List (Option String × Json) → String
  | [] => ""
  | (k,x) :: ms => "," ++ quote (k.getD "") ++ ":" ++ x.compact ++ compactMembers ms
end

def newLine (depth : Nat) : String := String.ofList ('\n' :: List.replicate (2*depth) ' ')

mutual
def indented (depth : Nat) : Json → String
  | .null => "null"
  | .bool true => "true"
  | .bool false => "false"
  | .number bs => spelled bs
  | .string s => quote (s.getD "")
  | .array [] => "[]"
  | .array (x :: xs) =>
    "[" ++ newLine (depth+1) ++ x.indented (depth+1) ++ indentedItems (depth+1) xs ++
      newLine depth ++ "]"
  | .object [] => "\x7b\x7d"
  | .object ((k,x) :: ms) =>
    "\x7b" ++ newLine (depth+1) ++ quote (k.getD "") ++ ": " ++ x.indented (depth+1) ++
      indentedMembers (depth+1) ms ++ newLine depth ++ "\x7d"
def indentedItems (depth : Nat) : List Json → String
  | [] => ""
  | x :: xs => "," ++ newLine depth ++ x.indented depth ++ indentedItems depth xs
def indentedMembers (depth : Nat) : List (Option String × Json) → String
  | [] => ""
  | (k,x) :: ms =>
    "," ++ newLine depth ++ quote (k.getD "") ++ ": " ++ x.indented depth ++
      indentedMembers depth ms
end

def pretty (j : Json) : String := j.indented 0

end Json
end AddressedForms
