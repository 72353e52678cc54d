import CarSlice.Bytes

/-!
# Errors

Everything that can go wrong is a cause (`Error`). From the cause follow its
domain, its numeric code, its message, the lines of context that go with it and
whether trying again may help. Each domain owns a span of codes, so that a code
tells its domain.
-/

namespace CarSlice

/-! ## Domains and their codes -/

/-- The areas that errors belong to. -/
inductive Domain where
  | archive
  | validation
  | integrity
  | inputOutput
  | config
  | internal
  deriving Repr, DecidableEq

namespace Domain

/-- The number of a domain. -/
def number : Domain → Nat
  | .archive => 0x01
  | .validation => 0x02
  | .integrity => 0x03
  | .inputOutput => 0x04
  | .config => 0x05
  | .internal => 0x7F

/-- The domain with a number, if there is one. -/
def ofNumber? (n : Nat) : Option Domain :=
  [archive, validation, integrity, inputOutput, config, internal].find? (·.number = n)

/-- How many codes a domain owns. -/
def span : Nat := 0x0100

/-- The first code of a domain. -/
def base (domain : Domain) : Nat :=
  domain.number * span

/-- The first code of the domain with a number. Unknown domains begin at zero. -/
def baseOf (number : Nat) : Nat :=
  match ofNumber? number with
  | some domain => domain.base
  | none => 0

/-- The last code of the domain with a number. -/
def lastOf (number : Nat) : Nat :=
  baseOf number + span - 1

/-- The code at an offset in the domain with a number. -/
def codeOf (number offset : Nat) : Nat :=
  baseOf number + offset

/-- Whether a code lies in the span of the domain with a number. -/
def owns (number code : Nat) : Bool :=
  baseOf number ≤ code && code ≤ lastOf number

end Domain

/-! ## Causes -/

/-- What is wrong with the body of an archive header. -/
inductive HeaderFault where
  | notMap
  | missingVersion
  | missingRoots
  /-- A root that is no link to a CID. -/
  | badRoot
  /-- A link whose bytes are not exactly one CID. -/
  | badRootCid
  | unsupportedVersion
  deriving Repr, DecidableEq

/-- What is wrong with the framing of an archive. -/
inductive FramingFault where
  | headerTruncated
  | headerTooLarge
  | lengthTruncated
  | lengthOverlong
  | sectionTruncated
  | sectionTooLarge
  | sectionEmpty
  | badCid
  deriving Repr, DecidableEq

/-- The two ends at which a file is opened. -/
inductive FileRole where
  | input
  | output
  deriving Repr, DecidableEq

/-- A cause of failure. -/
inductive Error where
  /-- The header's body is malformed. -/
  | header (fault : HeaderFault)
  /-- The framing is malformed; `offset` bytes were consumed so far. -/
  | framing (fault : FramingFault) (offset : Nat)
  /-- A requested range begins behind its end. -/
  | startAfterEnd (start stop : Nat)
  /-- A requested range does not lie in a file of the given size. -/
  | outsideFile (start : Nat) (stop : Option Nat) (size : Nat)
  /-- A range parameter that is not of the form `start:end`. -/
  | rangeForm (value : Text)
  /-- A block whose digest is not that of its CID. -/
  | digestMismatch (cid : Text)
  /-- The device under the source broke. -/
  | sourceFailed
  /-- The sink refused bytes; `reason` is what it said, if anything. -/
  | sinkFailed (reason : Option Text)
  /-- A file could not be opened. -/
  | openFailed (role : FileRole) (path : Text)
  /-- A second header was to be written. -/
  | headerTwice
  /-- A block was to be written before the header. -/
  | blockBeforeHeader
  deriving Repr, DecidableEq

/-- Whether trying again may help. -/
inductive Retry where
  | fatal
  | transient
  | retryable
  deriving Repr, DecidableEq

/-! ## Codes -/

/-- The offset of a header fault in the codes for archives. -/
def HeaderFault.offset : HeaderFault → Nat
  | .notMap | .missingVersion | .missingRoots | .badRoot => 0x06
  | .badRootCid => 0x05
  | .unsupportedVersion => 0x07

/-- The offset of a framing fault in the codes for archives. -/
def FramingFault.offset : FramingFault → Nat
  | .sectionEmpty => 0x01
  | .lengthTruncated | .sectionTruncated => 0x02
  | .headerTooLarge | .sectionTooLarge => 0x03
  | .lengthOverlong => 0x04
  | .badCid => 0x05
  | .headerTruncated => 0x06

namespace Error

/-- The domain of a cause. -/
def domain : Error → Domain
  | .header _ | .framing .. => .archive
  | .startAfterEnd .. | .outsideFile .. | .rangeForm _ => .validation
  | .digestMismatch _ => .integrity
  | .sourceFailed | .sinkFailed _ | .openFailed .. => .inputOutput
  | .headerTwice | .blockBeforeHeader => .internal

/-- The offset of a cause in the codes of its domain. -/
def offset : Error → Nat
  | .header fault => fault.offset
  | .framing fault _ => fault.offset
  | .startAfterEnd .. => 0x01
  | .outsideFile .. => 0x02
  | .rangeForm _ => 0x03
  | .digestMismatch _ => 0x01
  | .sourceFailed => 0x01
  | .sinkFailed _ => 0x02
  | .openFailed .. => 0x03
  | .headerTwice => 0x01
  | .blockBeforeHeader => 0x02

/-- The numeric code of a cause. -/
def code (e : Error) : Nat :=
  e.domain.base + e.offset

/-- Failures of a device may pass; everything else is final. -/
def retry : Error → Retry
  | .sourceFailed | .sinkFailed _ => .transient
  | _ => .fatal

end Error

/-! ## Messages -/

/-- The text of a range: its start, a colon, and its end or a star. -/
def rangeText (start : Nat) (stop : Option Nat) : Text :=
  decimal start ++ ascii ':' :: (stop.map decimal).getD [ascii '*']

/-- The message for a header fault. -/
def HeaderFault.message : HeaderFault → Text
  | .notMap => utf8 "CAR header is not a valid CBOR map"
  | .missingVersion => utf8 "CAR header missing version"
  | .missingRoots => utf8 "CAR header has no roots"
  | .badRoot | .badRootCid => utf8 "CAR header root is not a CID link"
  | .unsupportedVersion => utf8 "Only CAR v1 is supported"

/-- The message for a framing fault. -/
def FramingFault.message : FramingFault → Text
  | .headerTruncated => utf8 "CAR header truncated"
  | .headerTooLarge => utf8 "CAR header exceeds configured maximum"
  | .lengthTruncated => utf8 "Section length prefix truncated"
  | .lengthOverlong => utf8 "Varint exceeds 63 bits"
  | .sectionTruncated => utf8 "Section shorter than its length prefix"
  | .sectionTooLarge => utf8 "Section exceeds configured maximum"
  | .sectionEmpty => utf8 "Zero-length section"
  | .badCid => utf8 "Section does not start with a valid CID"

namespace Error

/-- The message for a cause. -/
def message : Error → Text
  | .header fault => fault.message
  | .framing fault _ => fault.message
  | .startAfterEnd .. => utf8 "Range start is after range end"
  | .outsideFile .. => utf8 "Range lies outside the file"
  | .rangeForm _ => utf8 "Range must have the form start:end"
  | .digestMismatch _ => utf8 "Block digest does not match its CID"
  | .sourceFailed => utf8 "Failed to read from upstream source"
  | .sinkFailed none => utf8 "Failed to write filtered output"
  | .sinkFailed (some reason) => utf8 "Failed to write filtered output: " ++ reason
  | .openFailed .input path => utf8 "Failed to open input " ++ path
  | .openFailed .output path => utf8 "Failed to open output " ++ path
  | .headerTwice => utf8 "CAR header already written"
  | .blockBeforeHeader => utf8 "CAR block written before header"

/-- The lines that say where or on what a cause arose. -/
def context : Error → List Text
  | .framing _ offset => [utf8 "stream offset " ++ decimal offset]
  | .startAfterEnd start stop => [utf8 "range " ++ rangeText start (some stop)]
  | .outsideFile start stop size =>
    [utf8 "range " ++ rangeText start stop, utf8 "file size " ++ decimal size]
  | .rangeForm value => [utf8 "value " ++ value]
  | .digestMismatch cid => [cid]
  | _ => []

end Error

end CarSlice
