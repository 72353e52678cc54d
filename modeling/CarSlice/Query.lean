import CarSlice.ByteRange

/-!
# Requests in a query string

A client asks for a range with the parameter `bytes` or `entity-bytes` of the
query string, in the form `start:end` or `start:*`; characters of the value may
be percent-encoded. The first such parameter alone decides. `parseRange` reads
it, `withoutRange` takes it out of the query, and `activation` asks first whether
the client accepts archives at all.
-/

namespace CarSlice.Query

/-! ## Accepted media types -/

/-- The media type of archives. -/
def mediaType : Text := utf8 "application/vnd.ipld.car"

/-- The lower case of an ASCII letter; every other byte is left alone. -/
def lower (b : UInt8) : UInt8 :=
  if 65 ≤ b ∧ b ≤ 90 then b + 32 else b

/-- Whether a byte is a blank or a tab. -/
def isBlank (b : UInt8) : Bool :=
  b == ascii ' ' || b == ascii '\t'

/-- A text without blanks at both ends. -/
def trim (s : Text) : Text :=
  ((s.dropWhile isBlank).reverse.dropWhile isBlank).reverse

/-- The media type of an entry of an Accept header, in lower case and without
parameters. -/
def mediaTypeOf (entry : Text) : Text :=
  (trim (entry.takeWhile (· != ascii ';'))).map lower

/-- Whether an Accept header names the media type of archives. -/
def acceptsArchive (accept : Text) : Bool :=
  (splitOn (ascii ',') accept).any fun entry => mediaTypeOf entry == mediaType

/-! ## Parameters -/

/-- Whether a query begins with a question mark. -/
def hasMark (query : Text) : Bool :=
  query.head? == some (ascii '?')

/-- The parameters of a query. -/
def parameters (query : Text) : List Text :=
  splitOn (ascii '&') (if hasMark query then query.tail else query)

/-- The key of a parameter: what comes before the first equals sign. -/
def key (parameter : Text) : Text :=
  parameter.takeWhile (· != ascii '=')

/-- Whether a parameter asks for a range. -/
def isRange (parameter : Text) : Bool :=
  key parameter == utf8 "bytes" || key parameter == utf8 "entity-bytes"

/-- Decodes percent-encoded bytes. Every percent sign must be followed by two
hexadecimal digits. -/
def percentDecode? : Text → Option Text
  | [] => some []
  | b :: rest =>
    if b = ascii '%' then
      match rest with
      | high :: low :: rest =>
        match hexValue? high, hexValue? low with
        | some h, some l => (percentDecode? rest).map (UInt8.ofNat (16 * h + l) :: ·)
        | _, _ => none
      | _ => none
    else (percentDecode? rest).map (b :: ·)

/-! ## Ranges -/

/-- The range that a value of the form `start:end` or `start:*` names. -/
def rangeOfValue (value : Text) : Except Error ByteRange :=
  match value.dropWhile (· != ascii ':') with
  | [] => .error (.rangeForm value)
  | _ :: stop =>
    match number? (value.takeWhile (· != ascii ':')) with
    | none => .error (.rangeForm value)
    | some start =>
      if stop = [ascii '*'] then .ok (.openEnded start)
      else
        match number? stop with
        | none => .error (.rangeForm value)
        | some stop => ByteRange.between start stop

/-- The range that a parameter names. A parameter without a value that can be
decoded is named as a whole in the error. -/
def rangeOfParameter (parameter : Text) : Except Error ByteRange :=
  match parameter.dropWhile (· != ascii '=') with
  | [] => .error (.rangeForm parameter)
  | _ :: encoded =>
    match percentDecode? encoded with
    | none => .error (.rangeForm parameter)
    | some value => rangeOfValue value

/-- The range that a query asks for, if it asks for one. -/
def parseRange (query : Text) : Except Error (Option ByteRange) :=
  match (parameters query).find? isRange with
  | none => .ok none
  | some parameter => (rangeOfParameter parameter).map some

/-- The range to be selected: the one of the query, if the client accepts
archives. -/
def activation (accept query : Text) : Except Error (Option ByteRange) :=
  if acceptsArchive accept then parseRange query else .ok none

/-- The query without range parameters and empty parameters, for fetching the
whole archive. -/
def withoutRange (query : Text) : Text :=
  let kept := (parameters query).filter fun p => !p.isEmpty && !isRange p
  let joined := [ascii '&'].intercalate kept
  if hasMark query && !joined.isEmpty then ascii '?' :: joined else joined

end CarSlice.Query
