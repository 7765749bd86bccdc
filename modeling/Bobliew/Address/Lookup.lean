import Bobliew.Http.Request
import Bobliew.Lib.Separated

/-!
# The host and the service of a lookup

`Address::Lookup` splits its argument into the node and the service that it passes to `getaddrinfo`. The node is a
string of its own, and empty until one of the attempts has found it. The service is a pointer into the argument,
so it stands for the rest of the argument from there, and an attempt that does not find the node leaves it where
it is.

With two or more colons the last attempt takes the whole argument for the node, and the service still points to
the first colon.
-/

namespace Bobliew

open Http

namespace Address

/-- The node, and where the service begins if it is not null. -/
structure LookupArguments where
  node : Bytes
  service : Option Bytes
  deriving DecidableEq

/-- `memchr` of a whole string: the rest that begins with the byte. -/
def memchr (s : Bytes) (c : UInt8) : Option Bytes :=
  if c ∈ s then some (s.dropWhile fun d => !decide (d = c)) else none

/-- The first attempt: a node in brackets, with a service behind a colon. -/
def bracketedNode (host : Bytes) : LookupArguments :=
  match host with
  | 91 :: inside =>
    match memchr inside 93 with
    | some endipv6 =>
      { node := inside.takeWhile fun d => !decide (d = 93)
        service := if endipv6[1]? = some 58 then some (endipv6.drop 2) else none }
    | none => ⟨[], none⟩
  | _ => ⟨[], none⟩

/-- The second attempt, for a node that is still empty: the only colon is in front of the service. -/
def nodeService (host : Bytes) (found : LookupArguments) : LookupArguments :=
  if found.node ≠ [] then found else
  match memchr host 58 with
  | some service =>
    if (memchr (service.drop 1) 58).isNone then
      ⟨host.takeWhile fun d => !decide (d = 58), some (service.drop 1)⟩
    else ⟨found.node, some service⟩
  | none => ⟨found.node, none⟩

/-- What `Lookup` passes to `getaddrinfo`. -/
def lookupArguments (host : Bytes) : LookupArguments :=
  let found := nodeService host (bracketedNode host)
  if found.node = [] then { found with node := host } else found

/-- The forms of the argument. -/
inductive HostForm where
  | bracketedService (n s : Bytes)
  | bracketed (n : Bytes)
  | service (n s : Bytes)
  | plain (n : Bytes)
  | literal (n : Bytes)

namespace HostForm

/-- The argument. -/
def text : HostForm → Bytes
  | .bracketedService n s => 91 :: n ++ [93, 58] ++ s
  | .bracketed n => 91 :: n ++ [93]
  | .service n s => n ++ 58 :: s
  | .plain n | .literal n => n

/-- What is expected to be passed. -/
def expected : HostForm → LookupArguments
  | .bracketedService n s | .service n s => ⟨n, some s⟩
  | .bracketed n | .plain n | .literal n => ⟨n, none⟩

/-- A host and a service of the form. -/
def Valid : HostForm → Prop
  | .bracketedService n s => n ≠ [] ∧ 93 ∉ n ∧ 58 ∉ s ∧ 93 ∉ s
  | .bracketed n => n ≠ [] ∧ 93 ∉ n
  | .service n s => n ≠ [] ∧ 58 ∉ n ∧ n.head? ≠ some 91 ∧ 58 ∉ s ∧ 93 ∉ s
  | .plain n => n ≠ [] ∧ 58 ∉ n
  | .literal n => 2 ≤ n.count 58 ∧ n.head? ≠ some 91

/-- The argument is no bare literal, and none in brackets that is read as a plain host. -/
def Plain : HostForm → Prop
  | .plain n => ∀ x rest, x ≠ [] → 93 ∉ x → n ≠ 91 :: x ++ 93 :: rest
  | .literal _ => False
  | _ => True

end HostForm

variable {host n s x : Bytes} {c : UInt8}

/-- The byte is found behind what does not contain it. -/
theorem memchr_append (h : c ∉ x) (rest : Bytes) : memchr (x ++ c :: rest) c = some (c :: rest) := by
  rw [memchr, if_pos (List.mem_append_right _ List.mem_cons_self), (List.cut_first h).2]

/-- A byte that is not there is not found. -/
theorem memchr_eq_none (h : c ∉ x) : memchr x c = none := if_neg h

/-- The first attempt on a text without an opening bracket. -/
theorem bracketedNode_of_head (h : host.head? ≠ some 91) : bracketedNode host = ⟨[], none⟩ := by
  unfold bracketedNode
  split
  · exact absurd rfl h
  · rfl

/-- The first attempt on a text with both brackets. -/
theorem bracketedNode_cut (h : 93 ∉ x) (rest : Bytes) : bracketedNode (91 :: x ++ 93 :: rest) =
    ⟨x, if rest.head? = some 58 then some (rest.drop 1) else none⟩ := by
  rw [List.cons_append]
  simp only [bracketedNode, memchr_append h, (List.cut_first h).1]
  rw [List.getElem?_cons_succ, ← List.head?_eq_getElem?]
  rfl

/-- The first attempt on a text without a closing bracket. -/
theorem bracketedNode_open (h : 93 ∉ x) : bracketedNode (91 :: x) = ⟨[], none⟩ := by
  simp only [bracketedNode, memchr_eq_none h]

/-- A node that was found is passed. -/
theorem lookupArguments_of_node {found : LookupArguments} (h : bracketedNode host = found) (hnode : found.node ≠ []) :
    lookupArguments host = found := by
  have hkept : nodeService host found = found := if_pos hnode
  simp only [lookupArguments, h, hkept, if_neg hnode]

/-- The second attempt on a text with one colon. -/
theorem lookupArguments_service (h : (bracketedNode (n ++ 58 :: s)).node = []) (hn : n ≠ []) (hcolon : 58 ∉ n)
    (hs : 58 ∉ s) : lookupArguments (n ++ 58 :: s) = ⟨n, some s⟩ := by
  have hfound : nodeService (n ++ 58 :: s) (bracketedNode (n ++ 58 :: s)) = ⟨n, some s⟩ := by
    rw [nodeService, if_neg (not_not_intro h)]
    simp only [memchr_append hcolon, List.drop_succ_cons, List.drop_zero, memchr_eq_none hs, Option.isNone_none,
      if_true, (List.cut_first hcolon).1]
  simp only [lookupArguments, hfound, if_neg hn]

/-- The second attempt on a text without a colon. -/
theorem lookupArguments_plain (h : (bracketedNode n).node = []) (hcolon : 58 ∉ n) :
    lookupArguments n = ⟨n, none⟩ := by
  have hfound : nodeService n (bracketedNode n) = ⟨[], none⟩ := by
    rw [nodeService, if_neg (not_not_intro h)]
    simp only [memchr_eq_none hcolon, h]
  simp only [lookupArguments, hfound, if_true]

/-- The second attempt on a text with more colons: the service is the rest from the first one. -/
theorem lookupArguments_colons (h : (bracketedNode (x ++ 58 :: s)).node = []) (hcolon : 58 ∉ x) (hs : 58 ∈ s) :
    lookupArguments (x ++ 58 :: s) = ⟨x ++ 58 :: s, some (58 :: s)⟩ := by
  have hmore : (memchr s 58).isNone = false := by
    rw [memchr, if_pos hs]
    rfl
  have hfound : nodeService (x ++ 58 :: s) (bracketedNode (x ++ 58 :: s)) = ⟨[], some (58 :: s)⟩ := by
    rw [nodeService, if_neg (not_not_intro h)]
    simp only [memchr_append hcolon, List.drop_succ_cons, List.drop_zero, hmore, Bool.false_eq_true, if_false, h]
  simp only [lookupArguments, hfound, if_true]

/-- A plain host is passed as it is unless it begins with a text in brackets. -/
theorem lookupArguments_plain_iff (hn : n ≠ []) (hcolon : 58 ∉ n) :
    lookupArguments n = ⟨n, none⟩ ↔ (HostForm.plain n).Plain := by
  constructor
  · rintro h x rest hx hclose rfl
    have hfound := lookupArguments_of_node (bracketedNode_cut hclose rest) hx
    have hnode := congrArg LookupArguments.node (hfound.symm.trans h)
    have hlen := congrArg List.length hnode
    simp only [List.length_append, List.length_cons] at hlen
    omega
  · intro h
    refine lookupArguments_plain ?_ hcolon
    by_cases hopen : n.head? = some 91
    · obtain ⟨inside, rfl⟩ := List.head?_eq_some_iff.mp hopen
      by_cases hclose : 93 ∈ inside
      · obtain ⟨x, rest, rfl, hfirst⟩ := List.eq_append_cons_of_mem hclose
        have hx : x = [] := by
          by_contra hx
          exact h x rest hx hfirst rfl
        rw [← List.cons_append, bracketedNode_cut hfirst, hx]
      · rw [bracketedNode_open hclose]
    · rw [bracketedNode_of_head hopen]

/-- `Lookup` passes what is expected for an argument of one of the forms exactly when it is no bare literal, and no
plain host that begins with a text in brackets. -/
theorem lookupArguments_iff (form : HostForm) (h : form.Valid) :
    lookupArguments form.text = form.expected ↔ form.Plain := by
  cases form with
  | bracketedService n s =>
    obtain ⟨hn, hclose, _, _⟩ := h
    refine iff_of_true ?_ trivial
    have htext : (HostForm.bracketedService n s).text = 91 :: n ++ 93 :: (58 :: s) := by simp [HostForm.text]
    rw [htext]
    exact lookupArguments_of_node (bracketedNode_cut hclose (58 :: s)) hn
  | bracketed n =>
    obtain ⟨hn, hclose⟩ := h
    exact iff_of_true (lookupArguments_of_node (bracketedNode_cut hclose []) hn) trivial
  | service n s =>
    obtain ⟨hn, hcolon, hopen, hs, _⟩ := h
    refine iff_of_true (lookupArguments_service ?_ hn hcolon hs) trivial
    have hhead : (n ++ 58 :: s).head? ≠ some 91 := by
      rwa [List.head?_append_of_ne_nil n hn]
    rw [bracketedNode_of_head hhead]
  | plain n => exact lookupArguments_plain_iff h.1 h.2
  | literal n =>
    obtain ⟨hcount, hopen⟩ := h
    refine iff_of_false (fun heq => ?_) not_false
    have hmem : 58 ∈ n := List.count_pos_iff.mp (by omega)
    obtain ⟨x, s, rfl, hcolon⟩ := List.eq_append_cons_of_mem hmem
    have hs : 58 ∈ s := by
      rw [List.count_append, List.count_cons_self, List.count_eq_zero_of_not_mem hcolon] at hcount
      exact List.count_pos_iff.mp (by omega)
    have hnode : (bracketedNode (x ++ 58 :: s)).node = [] := by
      rw [bracketedNode_of_head hopen]
    change lookupArguments (x ++ 58 :: s) = ⟨x ++ 58 :: s, none⟩ at heq
    rw [lookupArguments_colons hnode hcolon hs] at heq
    cases heq

/-- A host with a port. -/
theorem lookupArguments_iff_port :
    lookupArguments (asciiText "example.org:80".toList) =
      ⟨asciiText "example.org".toList, some (asciiText "80".toList)⟩ :=
  (lookupArguments_iff (.service (asciiText "example.org".toList) (asciiText "80".toList))
    ⟨by decide, by decide, by decide, by decide, by decide⟩).mpr trivial

/-- The loopback address is passed with itself as the service. -/
theorem not_lookupArguments_loopback :
    ¬ ∀ form : HostForm, form.Valid → lookupArguments form.text = form.expected := by
  intro h
  have hloopback := h (.literal (asciiText "::1".toList)) ⟨by decide, by decide⟩
  exact absurd hloopback (by decide)

end Address

end Bobliew
