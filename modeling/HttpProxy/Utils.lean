import HttpProxy.Cpp

/-! The functions of `utils.cpp`: the case-insensitive search, the classification of a body and the lookup of
    a header field. -/

namespace HttpProxy
open Search

inductive Body where
  | contentLength
  | chunked
  | none
  deriving DecidableEq, Repr

def toLowercase (str : Bytes) : Bytes := str.map tolower

/-- Whether the start of a string matches `needle` under the predicate `eq`. -/
def startsWithBy (eq : Byte → Byte → Bool) : Bytes → Bytes → Bool
  | [], _ => true
  | _ :: _, [] => false
  | ch2 :: needle, ch1 :: rest => eq ch1 ch2 && startsWithBy eq needle rest

/-- `std::search` with the predicate `eq`: the offset of the first match, the end where there is none. -/
def search (eq : Byte → Byte → Bool) (needle : Bytes) : Bytes → Nat
  | [] => 0
  | c :: rest => if startsWithBy eq needle (c :: rest) then 0 else search eq needle rest + 1

def findCi (haystack needle : Bytes) : Bool :=
  search (fun ch1 ch2 => tolower ch1 == tolower ch2) needle haystack != haystack.length

def identifyBody (httpHeader : Bytes) : Body :=
  if findCi httpHeader (ascii "content-length") then .contentLength
  else if findCi httpHeader (ascii "chunked") then .chunked
  else .none

/-- The text that `parse_field` cuts out of a header, before it trims it. -/
def cutField (httpHeader field : Bytes) : Except Fault Bytes :=
  let httpHeader := toLowercase httpHeader
  let field := toLowercase field
  -- Where the field is not found, `npos + field.size() + 1` wraps around to `field.size()`.
  let lenFieldBeg := match find? field httpHeader with
    | some pos => pos + field.length + 1
    | none => field.length
  let lenFieldEnd := findFrom? crlf httpHeader lenFieldBeg
  substr httpHeader lenFieldBeg (lenFieldEnd.map (· - lenFieldBeg))

/-- `result.erase(result.find(" "), result.find_first_not_of(" "))`, a position and a count. -/
def eraseSpaces (result : Bytes) : Bytes :=
  match find? (ascii " ") result with
  | some pos =>
    match findFirstNotOf result 32 with
    | some count => result.take pos ++ result.drop (pos + count)
    | none => result.take pos
  | none => result

/-- The second `erase`, of a range between two iterators, which is undefined unless the range is one. -/
def eraseSpaceRange (result : Bytes) : Except Fault Bytes :=
  match find? (ascii " ") result with
  | some first =>
    match findFirstNotOf result 32 with
    | some last => if first ≤ last then .ok (result.take first ++ result.drop last) else .error .undefined
    | none => .error .undefined
  | none => .ok result

def parseField (httpHeader field : Bytes) : Except Fault Bytes := do
  let result ← cutField httpHeader field
  eraseSpaceRange (eraseSpaces result)

end HttpProxy
