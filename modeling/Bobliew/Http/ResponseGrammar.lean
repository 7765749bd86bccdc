import Bobliew.Http.RequestGrammar

/-!
# The grammar of a response

The machine of `httpclient_parser.rl`, definition by definition. It accepts a response head or the size
line of a chunk. A header line is read by all the definitions that fit it at once, so the actions of
`transfer_encoding_chunked`, `conn_close`, `content_length` and `fields` are performed together.

`any -- CRLF` is any byte except the line feed, since a single byte never contains both bytes of the
longer line ending, and `space` contains the bytes of a line ending too.
-/

namespace Bobliew.Http

open Ragel

/-- The actions of the response machine. -/
inductive ResponseAction where
  | mark
  | startField
  | writeField
  | startValue
  | writeContentLen
  | writeConnectionClose
  | writeValue
  | reasonPhrase
  | statusCode
  | httpVersion
  | chunkSize
  | transChunked
  | done
  deriving DecidableEq

/-- A text in which the case of the letters does not matter. -/
def caseless {A : Type} (cs : List Char) : Rx A :=
  .seq (cs.map fun c => .byte (charSet [c.toLower, c.toUpper]))

namespace ResponseGrammar

open ResponseAction

/-- An expression of the response grammar. -/
abbrev Expr := Rx ResponseAction

/-- `CRLF`. -/
def crlf : Expr := .alt (.cat (.chr '\r') (.chr '\n')) (.chr '\n')

/-- `CTL`. -/
def ctl : ByteSet := .union (.range 0 31) (.range 127 127)

/-- `tspecials`. -/
def tspecials : ByteSet :=
  charSet ['(', ')', '<', '>', '@', ',', ';', ':', '\\', '\"', '/', '[', ']', '?', '=', '{', '}',
    ' ', '\t']

/-- `token`. -/
def token : ByteSet := .diff ascii (.union ctl tspecials)

/-- `Reason_Phrase`. -/
def reasonPhrasePart : Expr :=
  .leave reasonPhrase (.enter mark (.plus (.byte (.diff any (charSet ['\n'])))))

/-- `Status_Code`. -/
def statusCodePart : Expr := .leave statusCode (.enter mark (.plus (.byte digit)))

/-- `http_number`. -/
def httpNumber : Expr := .seq [.plus (.byte digit), .chr '.', .plus (.byte digit)]

/-- `HTTP_Version`. -/
def httpVersionPart : Expr :=
  .leave httpVersion (.enter mark (.cat (.text ['H', 'T', 'T', 'P', '/']) httpNumber))

/-- `Status_Line`. -/
def statusLine : Expr :=
  .entryGuarded 0 (.seq [httpVersionPart, .chr ' ', statusCodePart, .chr ' ', reasonPhrasePart]) crlf

/-- `field_name`. -/
def fieldName : Expr := .leave writeField (.enter startField (.plus (.byte token)))

/-- `field_value`. -/
def fieldValue : Expr := .leave writeValue (.enter startValue (.star (.byte any)))

/-- `fields`. -/
def fields : Expr :=
  .entryGuarded 1 (.seq [fieldName, .chr ':', .star (.byte space), fieldValue]) crlf

/-- `content_length`. -/
def contentLength : Expr :=
  .cat
    (.seq [.leave writeField (.enter startField
        (caseless ['C', 'o', 'n', 't', 'e', 'n', 't', '-', 'L', 'e', 'n', 'g', 't', 'h'])),
      .chr ':', .star (.byte space),
      .leave writeValue (.leave writeContentLen (.enter startValue (.plus (.byte digit))))])
    crlf

/-- `conn_close`. -/
def connClose : Expr :=
  .cat
    (.seq [caseless ['C', 'o', 'n', 'n', 'e', 'c', 't', 'i', 'o', 'n'], .chr ':', .star (.byte space),
      caseless ['c', 'l', 'o', 's', 'e']])
    (.leave writeConnectionClose crlf)

/-- `transfer_encoding_chunked`. -/
def transferEncodingChunked : Expr :=
  .cat
    (.seq [.leave writeField (.enter startField
        (caseless ['T', 'r', 'a', 'n', 's', 'f', 'e', 'r', '-', 'E', 'n', 'c', 'o', 'd', 'i', 'n', 'g'])),
      .chr ':', .star (.byte space),
      .leave writeValue (.enter startValue (caseless ['c', 'h', 'u', 'n', 'k', 'e', 'd']))])
    (.finish transChunked crlf)

/-- `message_header`. -/
def messageHeader : Expr := .oneOf [transferEncodingChunked, connClose, contentLength, fields]

/-- `Response`. -/
def response : Expr := .seq [statusLine, .star messageHeader, crlf]

/-- `chunk_ext_val`. -/
def chunkExtVal : Expr := .plus (.byte token)

/-- `chunk_ext_name`. -/
def chunkExtName : Expr := .plus (.byte token)

/-- `chunk_extension`. -/
def chunkExtension : Expr :=
  .star (.seq [.chr ';',
    .leave startValue (.leave writeField (.enter startField chunkExtName)),
    .leave writeValue (.opt (.cat (.chr '=') (.enter startValue chunkExtVal)))])

/-- `chunk_size`. -/
def chunkSizePart : Expr := .plus (.byte xdigit)

/-- `Chunked_Header`. -/
def chunkedHeader : Expr :=
  .entryGuarded 2 (.cat (.leave chunkSize (.enter mark chunkSizePart)) chunkExtension) crlf

/-- `main`. -/
def main : Expr := .finish done (.alt response chunkedHeader)

end ResponseGrammar

/-- The start state of the response machine. -/
def httpclientParserStart : List (Thread ResponseAction) :=
  [(ResponseGrammar.main.stamp 0).1]

end Bobliew.Http
