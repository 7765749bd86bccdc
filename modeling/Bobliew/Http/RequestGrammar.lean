import Bobliew.Lib.Ragel

/-!
# The grammar of a request

The machine of `http11_parser.rl`, definition by definition. Single bytes are byte sets, everything
else is an expression with the actions embedded where the grammar embeds them. Definitions that
`main` does not reach are left out.

Some of the grammar is not what its spelling suggests, and is kept as Ragel reads it: `0 - 31` and
`"1"-"9"` are differences and not ranges, and `6( h16 ":" )` is the byte 6 followed by one group.
-/

namespace Bobliew.Http

open Ragel

/-- The actions of the request machine. -/
inductive RequestAction where
  | mark
  | startField
  | writeField
  | startValue
  | writeValue
  | requestMethod
  | requestUri
  | fragment
  | startQuery
  | queryString
  | httpVersion
  | requestPath
  | done
  | xml
  | json
  deriving DecidableEq

/-- One of the listed characters. -/
def charSet : List Char → ByteSet
  | [] => .range 1 0
  | [c] => .range c.toNat c.toNat
  | c :: cs => .union (.range c.toNat c.toNat) (charSet cs)

/-- `alpha`. -/
def alpha : ByteSet := .union (.range 97 122) (.range 65 90)

/-- `digit`. -/
def digit : ByteSet := .range 48 57

/-- `xdigit`. -/
def xdigit : ByteSet := .union digit (.union (.range 97 102) (.range 65 70))

/-- `upper`. -/
def upper : ByteSet := .range 65 90

/-- `space`. -/
def space : ByteSet := .union (.range 9 13) (.range 32 32)

/-- `ascii`. -/
def ascii : ByteSet := .range 0 127

/-- `any`. -/
def any : ByteSet := .range 0 255

namespace RequestGrammar

open RequestAction

/-- An expression of the request grammar. -/
abbrev Expr := Rx RequestAction

/-- `CRLF`. -/
def crlf {A : Type} : Rx A := .alt (.cat (.chr '\r') (.chr '\n')) (.chr '\n')

/-! ## URI description -/

section Uri

variable (uriRelaxed : Bool)

/-- `more_delims`, accepted when `uri_relaxed` is set. -/
def moreDelims : ByteSet := if uriRelaxed then charSet ['{', '}', '^'] else charSet []

/-- `sub_delims`. -/
def subDelims : ByteSet :=
  .union (charSet ['!', '$', '&', '\'', '(', ')', '*', '+', ',', ';', '=']) (moreDelims uriRelaxed)

/-- `unreserved`. -/
def unreserved : ByteSet := .union alpha (.union digit (charSet ['-', '.', '_', '~']))

/-- `pct_encoded`. -/
def pctEncoded : Expr := .seq [.chr '%', .byte xdigit, .byte xdigit]

/-- `pchar`. -/
def pchar : Expr :=
  .oneOf [.byte (.diff any ascii), .byte unreserved, pctEncoded, .byte (subDelims uriRelaxed),
    .chr ':', .chr '@']

/-- The bytes of a fragment or a query. -/
def queryChar : Expr := .oneOf [pchar uriRelaxed, .chr '/', .chr '?']

/-- `fragment`. -/
def fragmentPart : Expr := .leave fragment (.enter mark (.star (queryChar uriRelaxed)))

/-- `query`. -/
def query : Expr := .leave queryString (.star (queryChar uriRelaxed))

/-- `segment_nz_nc`. -/
def segmentNzNc : Expr :=
  .plus (.oneOf [.byte unreserved, pctEncoded, .byte (subDelims uriRelaxed), .chr '@'])

/-- `segment_nz`. -/
def segmentNz : Expr := .plus (pchar uriRelaxed)

/-- `segment`. -/
def segment : Expr := .star (pchar uriRelaxed)

/-- The repeated `"/" segment`. -/
def segments : Expr := .star (.cat (.chr '/') (segment uriRelaxed))

/-- `path_empty`. -/
def pathEmpty : Expr := .empty

/-- `path_rootless`. -/
def pathRootless : Expr := .cat (segmentNz uriRelaxed) (segments uriRelaxed)

/-- `path_noscheme`. -/
def pathNoscheme : Expr := .cat (segmentNzNc uriRelaxed) (segments uriRelaxed)

/-- `path_absolute`. -/
def pathAbsolute : Expr :=
  .cat (.chr '/') (.opt (.cat (segmentNz uriRelaxed) (segments uriRelaxed)))

/-- `path_abempty`. -/
def pathAbempty : Expr := segments uriRelaxed

/-- `reg_name`. -/
def regName : Expr :=
  .star (.oneOf [.byte unreserved, pctEncoded, .byte (subDelims uriRelaxed)])

/-- `dec_octet`. -/
def decOctet : Expr :=
  .oneOf [.byte digit,
    .cat (.byte (.diff (charSet ['1']) (charSet ['9']))) (.byte digit),
    .seq [.chr '1', .byte digit, .byte digit],
    .seq [.chr '2', .byte (.diff (charSet ['0']) (charSet ['4'])), .byte digit],
    .seq [.chr '2', .chr '5', .byte (.diff (charSet ['0']) (charSet ['5']))]]

/-- `IPv4address`. -/
def ipv4address : Expr :=
  .seq [decOctet, .chr '.', decOctet, .chr '.', decOctet, .chr '.', decOctet]

/-- `h16`. -/
def h16 : Expr := .cat (.byte xdigit) (.upTo (.byte xdigit) 3)

/-- `ls32`. -/
def ls32 : Expr := .alt (.seq [h16, .chr ':', h16]) ipv4address

/-- `( h16 ":" ){n,} h16`. -/
def groups (n : ℕ) : Expr :=
  .cat (.times (.cat h16 (.chr ':')) n (.star (.cat h16 (.chr ':')))) h16

/-- A byte given by its number. -/
def numbered (n : ℕ) : Expr := .byte (.range n n)

/-- `IPv6address`. -/
def ipv6address : Expr :=
  .oneOf [.seq [numbered 6, h16, .chr ':', ls32],
    .seq [.text [':', ':'], numbered 5, h16, .chr ':', ls32],
    .seq [.opt h16, .text [':', ':'], numbered 4, h16, .chr ':', ls32],
    .seq [.opt (groups 1), .text [':', ':'], numbered 3, h16, .chr ':', ls32],
    .seq [.opt (groups 2), .text [':', ':'], numbered 2, h16, .chr ':', ls32],
    .seq [.opt (groups 3), .text [':', ':'], h16, .chr ':', ls32],
    .seq [.opt (groups 4), .text [':', ':'], ls32],
    .seq [.opt (groups 5), .text [':', ':'], h16],
    .seq [.opt (groups 6), .text [':', ':']]]

/-- `IPvFuture`. -/
def ipvFuture : Expr :=
  .seq [.chr 'v', .plus (.byte xdigit), .chr '.',
    .plus (.byte (.union unreserved (.union (subDelims uriRelaxed) (charSet [':']))))]

/-- `IP_literal`. -/
def ipLiteral : Expr :=
  .seq [.chr '[', .alt ipv6address (ipvFuture uriRelaxed), .chr ']']

/-- `port`. -/
def port : Expr := .star (.byte digit)

/-- `host`. -/
def host : Expr := .oneOf [ipLiteral uriRelaxed, ipv4address, regName uriRelaxed]

/-- `userinfo`. -/
def userinfo : Expr :=
  .star (.oneOf [.byte unreserved, pctEncoded, .byte (subDelims uriRelaxed), .chr ':'])

/-- `authority`. -/
def authority : Expr :=
  .seq [.opt (.cat (userinfo uriRelaxed) (.chr '@')), host uriRelaxed, .opt (.cat (.chr ':') port)]

/-- `scheme`. -/
def scheme : Expr :=
  .cat (.byte alpha) (.star (.byte (.union alpha (.union digit (charSet ['+', '-', '.'])))))

/-- `relative_part`. -/
def relativePart : Expr :=
  .oneOf [.seq [.text ['/', '/'], authority uriRelaxed, pathAbempty uriRelaxed],
    pathAbsolute uriRelaxed, pathNoscheme uriRelaxed, pathEmpty]

/-- `hier_part`. -/
def hierPart : Expr :=
  .oneOf [.seq [.text ['/', '/'], authority uriRelaxed, pathAbempty uriRelaxed],
    pathAbsolute uriRelaxed, pathRootless uriRelaxed, pathEmpty]

/-- The part of a reference from its path on: the path, the query and the fragment. -/
def pathOnwards (part : Expr) : Expr :=
  .cat
    (.leave requestUri (.enter mark
      (.cat (.leave requestPath part)
        (.opt (.cat (.leave startQuery (.chr '?')) (query uriRelaxed))))))
    (.opt (.cat (.chr '#') (fragmentPart uriRelaxed)))

/-- `relative_ref`. -/
def relativeRef : Expr := pathOnwards uriRelaxed (relativePart uriRelaxed)

/-- `URI`. -/
def uri : Expr := .seq [scheme, .chr ':', pathOnwards uriRelaxed (hierPart uriRelaxed)]

/-- `URI_reference`. -/
def uriReference : Expr := .alt (uri uriRelaxed) (relativeRef uriRelaxed)

end Uri

/-! ## Header parsing -/

/-- `Method`. -/
def method : Expr :=
  .leave requestMethod (.enter mark
    (.cat (.byte (.union upper digit)) (.upTo (.byte (.union upper digit)) 19)))

/-- `HTTP_Version`. -/
def httpVersionPart : Expr :=
  .leave httpVersion (.enter mark
    (.cat (.text ['H', 'T', 'T', 'P', '/']) (.cat (.text ['1', '.']) (.alt (.chr '0') (.chr '1')))))

/-- `Request_Line`. -/
def requestLine (uriRelaxed : Bool) : Expr :=
  .seq [method, .chr ' ', uriReference uriRelaxed, .chr ' ', httpVersionPart, crlf]

/-- `HTTP_CTL`. -/
def httpCtl : ByteSet := .union (.diff (.range 0 0) (.range 31 31)) (.range 127 127)

/-- `HTTP_separator`. -/
def httpSeparator : ByteSet :=
  charSet ['(', ')', '<', '>', '@', ',', ';', ':', '\\', '\"', '/', '[', ']', '?', '=', '{', '}',
    ' ', '\t']

/-- The blanks of `lws`. -/
def blank : ByteSet := charSet [' ', '\t']

/-- `token`. -/
def token : ByteSet := .diff ascii (.union httpCtl httpSeparator)

section Header

variable {A : Type}

/-- `lws`. -/
def lws : Rx A := .cat (.opt crlf) (.plus (.byte blank))

/-- `content`. -/
def content : Rx A := .alt (.byte (.diff any httpCtl)) lws

/-- `field_name`, with its two actions. -/
def fieldName (start write : A) : Rx A := .leave write (.enter start (.plus (.byte token)))

/-- `field_value`, with its two actions. -/
def fieldValue (start write : A) : Rx A := .leave write (.enter start (.star content))

/-- `message_header`, with its four actions. -/
def messageHeader (startField writeField startValue writeValue : A) : Rx A :=
  .entryGuarded 0
    (.seq [fieldName startField writeField, .chr ':', .star lws, fieldValue startValue writeValue]) crlf

/-- What follows the request line: the headers and the empty line. -/
def headers (startField writeField startValue writeValue : A) : Rx A :=
  .cat (.star (messageHeader startField writeField startValue writeValue)) crlf

end Header

/-- `Request`. -/
def request (uriRelaxed : Bool) : Expr :=
  .cat (requestLine uriRelaxed) (headers startField writeField startValue writeValue)

/-- `SocketJSONStart`. -/
def socketJSONStart (uriRelaxed : Bool) : Expr := .cat (.chr '@') (relativePart uriRelaxed)

/-- `SocketJSONData`. -/
def socketJSONData : Expr :=
  .finishGuarded 1 (.seq [.chr '{', .star (.byte any), .chr '}']) (numbered 0)

/-- `SocketXMLData`. -/
def socketXMLData : Expr :=
  .finishGuarded 2
    (.seq [.leave requestPath (.enter mark
        (.cat (.chr '<') (.plus (.byte (.union alpha (.union digit (charSet ['-', '.']))))))),
      .byte (.union (charSet ['/', '>']) space), .star (.byte any), .chr '>'])
    (numbered 0)

/-- `SocketJSON`. -/
def socketJSON (uriRelaxed : Bool) : Expr :=
  .seq [.leave requestPath (.enter mark (socketJSONStart uriRelaxed)), .chr ' ',
    .finish json (.enter mark socketJSONData)]

/-- `SocketXML`. -/
def socketXML : Expr := .finish xml socketXMLData

/-- `SocketRequest`. -/
def socketRequest (uriRelaxed : Bool) : Expr := .alt socketXML (socketJSON uriRelaxed)

/-- `main`. -/
def main (uriRelaxed : Bool) : Expr :=
  .finish done (.alt (request uriRelaxed) (socketRequest uriRelaxed))

end RequestGrammar

/-- The start state of the request machine. -/
def httpParserStart (uriRelaxed : Bool) : List (Thread RequestAction) :=
  [((RequestGrammar.main uriRelaxed).stamp 0).1]

end Bobliew.Http
