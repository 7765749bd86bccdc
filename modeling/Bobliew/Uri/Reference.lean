import Bobliew.Uri.Grammar
import Bobliew.Lib.RagelDelimited

/-!
# References of RFC 3986

The grammar of RFC 3986 as languages of bytes, with the bytes from 0x80 on added to `pchar`; a segment
without colons is made of the same characters except the colon. Texts in quotes are case-insensitive in that
grammar, so an `IPvFuture` begins with either case of the letter. The octets of an `IPv4address` and the hosts
of a reference are parameters.

A reference is also the text of its components. Delimiters that do not occur inside the components tell them
apart, so a text has one reading.
-/

namespace Bobliew

open Ragel Http

namespace Rfc3986

/-! ## The grammar -/

/-- One byte of a set. -/
def bytes (set : ByteSet) : Language UInt8 := {w | ∃ c, set.has c = true ∧ w = [c]}

/-- A character. -/
def chr (c : Char) : Language UInt8 := bytes (charSet [c])

/-- `[ l ]`. -/
def opt (l : Language UInt8) : Language UInt8 := l + 1

/-- `1*l`. -/
def plus (l : Language UInt8) : Language UInt8 := l * KStar.kstar l

/-- `*n l`, at most `n` repetitions. -/
def upTo (l : Language UInt8) : ℕ → Language UInt8
  | 0 => 1
  | n + 1 => opt (l * upTo l n)

/-- `unreserved`. -/
def unreserved : ByteSet := .union alpha (.union digit (charSet ['-', '.', '_', '~']))

/-- `sub-delims`. -/
def subDelims : ByteSet := charSet ['!', '$', '&', '\'', '(', ')', '*', '+', ',', ';', '=']

/-- `pct-encoded`. -/
def pctEncoded : Language UInt8 := chr '%' * (bytes xdigit * bytes xdigit)

/-- `pchar` without the colon, with the bytes from 0x80 on. -/
def pcharNc : Language UInt8 :=
  bytes unreserved + pctEncoded + bytes subDelims + chr '@' + bytes (.range 128 255)

/-- `pchar` with the bytes from 0x80 on. -/
def pchar : Language UInt8 := pcharNc + chr ':'

/-- `scheme`. -/
def scheme : Language UInt8 :=
  bytes alpha * KStar.kstar (bytes (.union alpha (.union digit (charSet ['+', '-', '.']))))

/-- `userinfo`. -/
def userinfo : Language UInt8 := KStar.kstar (bytes unreserved + pctEncoded + bytes subDelims + chr ':')

/-- `port`. -/
def port : Language UInt8 := KStar.kstar (bytes digit)

/-- `reg-name`. -/
def regName : Language UInt8 := KStar.kstar (bytes unreserved + pctEncoded + bytes subDelims)

/-- `*( "/" segment )`. -/
def pathAbempty : Language UInt8 := KStar.kstar (chr '/' * KStar.kstar pchar)

/-- `path-absolute`. -/
def pathAbsolute : Language UInt8 := chr '/' * opt (plus pchar * pathAbempty)

/-- `path-noscheme`. -/
def pathNoscheme : Language UInt8 := plus pcharNc * pathAbempty

/-- `path-rootless`. -/
def pathRootless : Language UInt8 := plus pchar * pathAbempty

/-- `query` and `fragment`. -/
def query : Language UInt8 := KStar.kstar (pchar + chr '/' + chr '?')

section Hosts

/-- `dec-octet`. -/
def decOctet : Language UInt8 :=
  bytes digit + bytes (.range 49 57) * bytes digit + chr '1' * (bytes digit * bytes digit) +
    chr '2' * (bytes (.range 48 52) * bytes digit) + chr '2' * (chr '5' * bytes (.range 48 53))

variable (octet : Language UInt8)

/-- `IPv4address`. -/
def ipv4Address : Language UInt8 := octet * (chr '.' * (octet * (chr '.' * (octet * (chr '.' * octet)))))

/-- `h16`. -/
def h16 : Language UInt8 := bytes xdigit * upTo (bytes xdigit) 3

/-- `h16 ":"`. -/
def group : Language UInt8 := h16 * chr ':'

/-- `ls32`. -/
def ls32 : Language UInt8 := group * h16 + ipv4Address octet

/-- `"::"`. -/
def elision : Language UInt8 := chr ':' * chr ':'

/-- `IPv6address`. -/
def ipv6Address : Language UInt8 :=
  group ^ 6 * ls32 octet +
  elision * (group ^ 5 * ls32 octet) +
  opt h16 * (elision * (group ^ 4 * ls32 octet)) +
  opt (upTo group 1 * h16) * (elision * (group ^ 3 * ls32 octet)) +
  opt (upTo group 2 * h16) * (elision * (group ^ 2 * ls32 octet)) +
  opt (upTo group 3 * h16) * (elision * (group * ls32 octet)) +
  opt (upTo group 4 * h16) * (elision * ls32 octet) +
  opt (upTo group 5 * h16) * (elision * h16) +
  opt (upTo group 6 * h16) * elision

/-- `IPvFuture`. -/
def ipvFuture : Language UInt8 :=
  bytes (charSet ['v', 'V']) * (plus (bytes xdigit) * (chr '.' * plus (bytes unreserved + bytes subDelims + chr ':')))

/-- `IP-literal`. -/
def ipLiteral : Language UInt8 := chr '[' * ((ipv6Address octet + ipvFuture) * chr ']')

/-- `host`. -/
def host : Language UInt8 := ipLiteral octet + ipv4Address octet + regName

end Hosts

section References

variable (host : Language UInt8)

/-- `authority`. -/
def authority : Language UInt8 := opt (userinfo * chr '@') * (host * opt (chr ':' * port))

/-- `hier-part`. -/
def hierPart : Language UInt8 :=
  chr '/' * (chr '/' * (authority host * pathAbempty)) + pathAbsolute + pathRootless + 1

/-- `relative-part`. -/
def relativePart : Language UInt8 :=
  chr '/' * (chr '/' * (authority host * pathAbempty)) + pathAbsolute + pathNoscheme + 1

/-- `[ "?" query ] [ "#" fragment ]`. -/
def queryFragment : Language UInt8 := opt (chr '?' * query) * opt (chr '#' * query)

/-- `URI`. -/
def uri : Language UInt8 := scheme * (chr ':' * (hierPart host * queryFragment))

/-- `relative-ref`. -/
def relativeRef : Language UInt8 := relativePart host * queryFragment

/-- `URI-reference`. -/
def uriReference : Language UInt8 := uri host + relativeRef host

end References

end Rfc3986

/-! ## The languages of the machine -/

namespace UriGrammar

open Rfc3986 (bytes)

/-- The bytes outside ASCII. -/
theorem bytes_diff_ascii : bytes (.diff any ascii) = bytes (.range 128 255) := by
  have hhas : ∀ c : UInt8, (ByteSet.diff any ascii).has c = (ByteSet.range 128 255).has c := by
    intro c
    have hlt := c.toNat_lt
    rw [Bool.eq_iff_iff]
    simp only [ByteSet.has, any, ascii, Bool.and_eq_true, Bool.not_eq_true', Nat.ble_eq, ← Bool.not_eq_true]
    omega
  ext w
  exact exists_congr fun c => by rw [hhas]

/-- `pchar` and `segment_nz_nc`. -/
theorem lang_pchar : pchar.lang = Rfc3986.pchar := by
  have hnames : pchar.lang = bytes (.diff any ascii) + (bytes unreserved + (Rfc3986.pctEncoded + (bytes subDelims +
      (Rfc3986.chr ':' + Rfc3986.chr '@')))) := rfl
  rw [hnames, bytes_diff_ascii, Rfc3986.pchar, Rfc3986.pcharNc]
  change _ = bytes unreserved + Rfc3986.pctEncoded + bytes subDelims + _ + _ + _
  ac_rfl

/-- `segment_nz_nc`. -/
theorem lang_segmentNzNc : segmentNzNc.lang = Rfc3986.plus Rfc3986.pcharNc := by
  have hnames : segmentNzNc.lang = Rfc3986.plus (bytes (.diff any ascii) + (bytes unreserved + (Rfc3986.pctEncoded +
      (bytes subDelims + Rfc3986.chr '@')))) := rfl
  rw [hnames, bytes_diff_ascii, Rfc3986.pcharNc]
  change _ = Rfc3986.plus (bytes unreserved + Rfc3986.pctEncoded + bytes subDelims + _ + _)
  exact congrArg Rfc3986.plus (by ac_rfl)

/-- `userinfo`. -/
theorem lang_userinfo : userinfo.lang = Rfc3986.userinfo := by
  have hnames : userinfo.lang = KStar.kstar (bytes unreserved + (Rfc3986.pctEncoded + (bytes subDelims +
      Rfc3986.chr ':'))) := rfl
  rw [hnames, ← add_assoc, ← add_assoc]
  rfl

/-- `reg_name`. -/
theorem lang_regName : regName.lang = Rfc3986.regName := by
  have hnames : regName.lang = KStar.kstar (bytes unreserved + (Rfc3986.pctEncoded + bytes subDelims)) := rfl
  rw [hnames, ← add_assoc]
  rfl

/-- The repeated `"/" segment`. -/
theorem lang_segments : segments.lang = Rfc3986.pathAbempty := by
  have hnames : segments.lang = KStar.kstar (Rfc3986.chr '/' * KStar.kstar pchar.lang) := rfl
  rw [hnames, lang_pchar]
  rfl

/-- `path_abempty`. -/
theorem lang_pathAbempty : pathAbempty.lang = Rfc3986.pathAbempty := by
  have hnames : pathAbempty.lang = (Rfc3986.chr '/' * KStar.kstar pchar.lang + 1) * segments.lang := rfl
  rw [hnames, lang_segments, lang_pchar, Rfc3986.pathAbempty, add_mul, one_mul]
  exact sup_eq_right.mpr mul_kstar_le_kstar

/-- `path_absolute`. -/
theorem lang_pathAbsolute : pathAbsolute.lang = Rfc3986.pathAbsolute := by
  have hnames : pathAbsolute.lang = Rfc3986.chr '/' * Rfc3986.opt (Rfc3986.plus pchar.lang * segments.lang) := rfl
  rw [hnames, lang_segments, lang_pchar]
  rfl

/-- `path_rootless`. -/
theorem lang_pathRootless : pathRootless.lang = Rfc3986.pathRootless := by
  have hnames : pathRootless.lang = Rfc3986.plus pchar.lang * segments.lang := rfl
  rw [hnames, lang_segments, lang_pchar]
  rfl

/-- `path_noscheme`. -/
theorem lang_pathNoscheme : pathNoscheme.lang = Rfc3986.pathNoscheme := by
  have hnames : pathNoscheme.lang = segmentNzNc.lang * segments.lang := rfl
  rw [hnames, lang_segments, lang_segmentNzNc]
  rfl

/-- `query` and `fragment`. -/
theorem lang_query : (Rx.star queryChar).lang = Rfc3986.query := by
  have hnames : (Rx.star queryChar).lang =
      KStar.kstar (pchar.lang + (Rfc3986.chr '/' + Rfc3986.chr '?')) := rfl
  rw [hnames, lang_pchar, ← add_assoc]
  rfl

/-- `( "?" query )? ( "#" fragment )?`. -/
theorem lang_queryFragment : queryFragment.lang = Rfc3986.queryFragment := by
  have hnames : queryFragment.lang = Rfc3986.opt (Rfc3986.chr '?' * (Rx.star queryChar).lang) *
      Rfc3986.opt (Rfc3986.chr '#' * (Rx.star queryChar).lang) := rfl
  rw [hnames, lang_query]
  rfl

/-- `authority`. -/
theorem lang_authority : authority.lang = Rfc3986.authority host.lang := by
  have hnames : authority.lang = Rfc3986.opt (userinfo.lang * Rfc3986.chr '@') *
      (host.lang * Rfc3986.opt (Rfc3986.chr ':' * port.lang)) := rfl
  rw [hnames, lang_userinfo]
  rfl

/-- The machine accepts the references with the hosts of its grammar. -/
theorem lang_main : main.lang = Rfc3986.uriReference host.lang := by
  have hhier : hierPart.lang = Rfc3986.hierPart host.lang := by
    have hnames : hierPart.lang = Rfc3986.chr '/' * (Rfc3986.chr '/' * (authority.lang * pathAbempty.lang)) +
        (pathAbsolute.lang + (pathRootless.lang + 1)) := rfl
    rw [hnames, lang_authority, lang_pathAbempty, lang_pathAbsolute, lang_pathRootless, ← add_assoc, ← add_assoc]
    rfl
  have hrelative : relativePart.lang = Rfc3986.relativePart host.lang := by
    have hnames : relativePart.lang = Rfc3986.chr '/' * (Rfc3986.chr '/' * (authority.lang * pathAbempty.lang)) +
        (pathAbsolute.lang + (pathNoscheme.lang + 1)) := rfl
    rw [hnames, lang_authority, lang_pathAbempty, lang_pathAbsolute, lang_pathNoscheme, ← add_assoc, ← add_assoc]
    rfl
  have hnames : main.lang = Rfc3986.scheme * (Rfc3986.chr ':' * (hierPart.lang * queryFragment.lang)) +
      relativePart.lang * queryFragment.lang := rfl
  rw [hnames, hhier, hrelative, lang_queryFragment]
  rfl

end UriGrammar

end Bobliew
