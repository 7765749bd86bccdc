import Bobliew.Http.RequestGrammar

/-!
# The grammar of a URI

The machine of `uri.rl`, definition by definition. Single bytes are byte sets, everything else is an
expression with the actions embedded where the grammar embeds them. Definitions that `main` does not
reach are left out.

Some of the grammar is not what its spelling suggests, and is kept as Ragel reads it: the `2` without
quotes in `dec_octet` is the byte 2, and `{n}` asks for exactly `n` repetitions.
-/

namespace Bobliew

open Ragel Http

/-- The actions of the URI machine. -/
inductive UriAction where
  | marku
  | markh
  | saveScheme
  | savePort
  | saveUserinfo
  | saveHost
  | savePath
  | saveQuery
  | saveFragment
  deriving DecidableEq

namespace UriGrammar

open UriAction

/-- An expression of the URI grammar. -/
abbrev Expr := Rx UriAction

/-- `sub_delims`. -/
def subDelims : ByteSet := charSet ['!', '$', '&', '\'', '(', ')', '*', '+', ',', ';', '=']

/-- `unreserved`. -/
def unreserved : ByteSet := .union alpha (.union digit (charSet ['-', '.', '_', '~']))

/-- `pct_encoded`. -/
def pctEncoded : Expr := .seq [.chr '%', .byte xdigit, .byte xdigit]

/-! ## The authority -/

/-- `scheme`. -/
def scheme : Expr :=
  .leave saveScheme (.enter marku
    (.cat (.byte alpha) (.star (.byte (.union alpha (.union digit (charSet ['+', '-', '.'])))))))

/-- `userinfo`. -/
def userinfo : Expr := .star (.oneOf [.byte unreserved, pctEncoded, .byte subDelims, .chr ':'])

/-- `dec_octet`. -/
def decOctet : Expr :=
  .oneOf [.byte digit, .seq [.byte (.range 49 57), .byte digit], .seq [.chr '1', .byte digit, .byte digit],
    .seq [.byte (.range 2 2), .byte (.range 48 52), .byte digit], .seq [.chr '2', .chr '5', .byte (.range 48 53)]]

/-- `IPv4address`. -/
def ipv4Address : Expr := .seq [decOctet, .chr '.', decOctet, .chr '.', decOctet, .chr '.', decOctet]

/-- `h16`. -/
def h16 : Expr := .cat (.byte xdigit) (.upTo (.byte xdigit) 3)

/-- `ls32`. -/
def ls32 : Expr := .alt (.seq [h16, .chr ':', h16]) ipv4Address

/-- `(h16 ":"){n}` in front of an expression. -/
def groups (n : ℕ) (after : Expr) : Expr := .times (.cat h16 (.chr ':')) n after

/-- `((h16 ":"){n} h16)? "::"` in front of an expression. -/
def elided (n : ℕ) (after : Expr) : Expr := .seq [.opt (groups n h16), .chr ':', .chr ':', after]

/-- `IPv6address`. -/
def ipv6Address : Expr :=
  .oneOf [groups 6 ls32, .seq [.chr ':', .chr ':', groups 5 ls32], elided 0 (groups 4 ls32), elided 1 (groups 3 ls32),
    elided 2 (groups 2 ls32), elided 3 (groups 1 ls32), elided 4 ls32, elided 5 h16, elided 6 .empty]

/-- `IPvFuture`. -/
def ipvFuture : Expr :=
  .seq [.chr 'v', .plus (.byte xdigit), .chr '.',
    .plus (.oneOf [.byte unreserved, .byte subDelims, .chr ':'])]

/-- `IP_literal`. -/
def ipLiteral : Expr := .seq [.chr '[', .alt ipv6Address ipvFuture, .chr ']']

/-- `reg_name`. -/
def regName : Expr := .star (.oneOf [.byte unreserved, pctEncoded, .byte subDelims])

/-- `host`. -/
def host : Expr := .oneOf [ipLiteral, ipv4Address, regName]

/-- `port`. -/
def port : Expr := .star (.byte digit)

/-- `authority`. -/
def authority : Expr :=
  .enter markh (.seq [.opt (.cat (.leave saveUserinfo userinfo) (.chr '@')), .leave saveHost (.enter markh host),
    .opt (.cat (.chr ':') (.leave savePort (.enter markh port)))])

/-! ## Paths -/

/-- `pchar`. -/
def pchar : Expr :=
  .oneOf [.byte (.diff any ascii), .byte unreserved, pctEncoded, .byte subDelims, .chr ':', .chr '@']

/-- `segment`. -/
def segment : Expr := .star pchar

/-- `segment_nz`. -/
def segmentNz : Expr := .plus pchar

/-- `segment_nz_nc`, the alternatives of `pchar` without the colon. -/
def segmentNzNc : Expr :=
  .plus (.oneOf [.byte (.diff any ascii), .byte unreserved, pctEncoded, .byte subDelims, .chr '@'])

/-- The repeated `"/" segment`. -/
def segments : Expr := .star (.cat (.chr '/') segment)

/-- `path_abempty`. -/
def pathAbempty : Expr := .cat (.opt (.cat (.chr '/') segment)) segments

/-- `path_absolute`. -/
def pathAbsolute : Expr := .cat (.chr '/') (.opt (.cat segmentNz segments))

/-- `path_noscheme`. -/
def pathNoscheme : Expr := .cat segmentNzNc segments

/-- `path_rootless`. -/
def pathRootless : Expr := .cat segmentNz segments

/-- `path_empty`. -/
def pathEmpty : Expr := .empty

/-! ## References -/

/-- The bytes of a query or a fragment. -/
def queryChar : Expr := .oneOf [pchar, .chr '/', .chr '?']

/-- `query`. -/
def query : Expr := .leave saveQuery (.enter marku (.star queryChar))

/-- `fragment`. -/
def fragment : Expr := .leave saveFragment (.enter marku (.star queryChar))

/-- `hier_part`. -/
def hierPart : Expr :=
  .oneOf [.seq [.chr '/', .chr '/', authority, .leave savePath (.enter markh pathAbempty)], pathAbsolute, pathRootless,
    pathEmpty]

/-- `relative_part`. -/
def relativePart : Expr :=
  .oneOf [.seq [.chr '/', .chr '/', authority, pathAbempty], pathAbsolute, pathNoscheme, pathEmpty]

/-- `( "?" query )? ( "#" fragment )?`. -/
def queryFragment : Expr :=
  .cat (.opt (.cat (.chr '?') query)) (.opt (.cat (.chr '#') fragment))

/-- `relative_ref`. -/
def relativeRef : Expr := .cat relativePart queryFragment

/-- `URI`. -/
def uri : Expr := .seq [scheme, .chr ':', hierPart, queryFragment]

/-- `URI_reference`. -/
def uriReference : Expr := .alt uri relativeRef

/-- `main`. -/
def main : Expr := uriReference

end UriGrammar

/-- `uri_parser_start`, the thread that the machine starts with. -/
def uriParserStart : Thread UriAction := (UriGrammar.main.stamp 0).1

end Bobliew
