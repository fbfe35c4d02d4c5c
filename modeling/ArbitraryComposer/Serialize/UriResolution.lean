import Mathlib.Data.List.Basic

/-!
# Resolving References

A reference in a document is resolved against the URI of the document and brought into a normal
form, so that a resolved URI names a document by one spelling. Segments that are empty or a dot are
dropped, and two dots take back the segment before them. A URI with a scheme is left as it is
written.

Texts are lists of characters; every character that matters here is one byte.

## Main definitions

- `hasScheme`, `normalizeUri`, `resolveUri`.
-/

namespace ArbitraryComposer

/-- A character of a scheme. -/
def isSchemeChar (c : Char) : Bool :=
  ('a' ≤ c && c ≤ 'z') || ('A' ≤ c && c ≤ 'Z') || ('0' ≤ c && c ≤ '9') ||
    c = '+' || c = '-' || c = '.'

/-- `has_scheme`: scheme characters up to a first colon with two slashes. -/
def hasScheme (s : List Char) : Bool :=
  !(s.takeWhile isSchemeChar).isEmpty && [':', '/', '/'].isPrefixOf (s.dropWhile isSchemeChar)

/-- What the loop of `normalize_uri` does with a segment; the segments kept so far are in reverse
order. -/
def pushSegment (absolute : Bool) (segments : List (List Char)) (segment : List Char) :
    List (List Char) :=
  if segment = ['.', '.'] then
    match segments with
    | last :: rest =>
      if last ≠ ['.', '.'] then rest else if absolute then segments else segment :: segments
    | [] => if absolute then [] else [segment]
  else if segment ≠ [] ∧ segment ≠ ['.'] then segment :: segments
  else segments

/-- The segments that `normalize_uri` keeps, in order. -/
def keptSegments (absolute : Bool) (uri : List Char) : List (List Char) :=
  ((uri.splitOn '/').foldl (pushSegment absolute) []).reverse

/-- `normalize_uri`. -/
def normalizeUri (uri : List Char) : List Char :=
  if hasScheme uri then uri
  else
    let absolute := uri.head? = some '/'
    (if absolute then ['/'] else []) ++ (['/'].intercalate (keptSegments absolute uri))

/-- The directory of a URI: all up to its last slash. -/
def uriDirectory (uri : List Char) : List Char :=
  (uri.reverse.dropWhile (· ≠ '/')).reverse

/-- `resolve_uri`. -/
def resolveUri (baseUri reference : List Char) : List Char :=
  if hasScheme reference ∨ reference.head? = some '/' then normalizeUri reference
  else normalizeUri (uriDirectory baseUri ++ reference)

end ArbitraryComposer
