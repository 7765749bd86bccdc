import Bobliew.ByteArray.Positional
import Bobliew.ByteArray.Strings

/-!
# Readers and the end of the chain

At the end of the chain there is no node under the cursor. The readers reach the chain through `read`,
which looks into that node before it knows whether a byte is wanted. All of them ask for at least one
byte, and then the comparison with the number of unread bytes comes first, except for `read` with the
size zero, and the readers of strings after a length of zero.
-/

namespace Bobliew

namespace ByteArray

open WireFormat

/-- `toString`. -/
def toString (a : ByteArray) : Except ByteArrayFault (List UInt8) :=
  if a.getReadSize = 0 then .ok [] else a.readAt a.getReadSize a.position

/-- A hexadecimal digit. -/
def hexDigit (n : ℕ) : UInt8 := if n < 10 then UInt8.ofNat (48 + n) else UInt8.ofNat (87 + n)

/-- What `toHexString` puts out for the byte with an index: a line break before every 32nd byte, two
digits, and a blank. -/
def hexByte (i : ℕ) (byte : UInt8) : List UInt8 :=
  (if i > 0 ∧ i % 32 = 0 then [10] else []) ++
    [hexDigit (byte.toNat / 16), hexDigit (byte.toNat % 16), 32]

/-- `toHexString`. -/
def toHexString (a : ByteArray) : Except ByteArrayFault (List UInt8) :=
  a.toString.map fun str => (str.mapIdx hexByte).flatten

/-- The operations of the read family. -/
inductive Reader where
  | read (size : ℕ)
  | value (kind : Kind)
  | string (format : LengthFormat)
  | toString
  | toHexString
  | getReadBuffers (len : ℕ)

/-- Perform such an operation and forget its result. -/
def Reader.perform : Reader → Action Unit
  | .read size => (fun _ => ()) <$> get size
  | .value kind => (fun _ => ()) <$> kind.reader
  | .string format => (fun _ => ()) <$> format.reader
  | .toString => .of fun a => (a, a.toString.map fun _ => ())
  | .toHexString => .of fun a => (a, a.toHexString.map fun _ => ())
  | .getReadBuffers len => .of fun a => (a, (a.getReadBuffers len).map fun _ => ())

/-- The operation completes or throws `out_of_range`: it does not follow a null pointer. -/
def Reader.Safe (reader : Reader) (a : ByteArray) : Prop := ∀ a', ¬ reader.perform.Throws a .nullNode a'

/-- Where an operation must not be used: `read` of no bytes at the end of the chain, and the readers of
strings where a length of zero is all that is left of a full chain. -/
def Reader.AtEndOfChain (reader : Reader) (a : ByteArray) : Prop :=
  match reader with
  | .read size => size = 0 ∧ a.position = a.capacity
  | .string _ => a.contents.drop a.position = [0, 0] ∧ a.size = a.capacity
  | _ => False

variable {A B : Type} {b n : ℕ} {full : Prop} {a a' : ByteArray} {all : List UInt8} {m : Action A}

/-- Where bytes are left to read, the operation returns and leaves some of them, or throws
`out_of_range`. -/
def Guarded (b : ℕ) (m : Action A) : Prop := ∀ full a all, Unread b full a all →
  (∃ x a' rest, m.Returns a x a' ∧ Unread b full a' rest) ∨ ∃ what a', m.Throws a (.outOfRange what) a'

/-- `read` of at least one byte. -/
theorem Guarded.get (hb : 1 ≤ b) (hn : 1 ≤ n) : Guarded b (get n) := by
  intro full a all h
  rcases h.get hb hn with ⟨_, hthrow⟩ | ⟨_, a', hret, h'⟩
  · exact Or.inr ⟨_, a, hthrow⟩
  · exact Or.inl ⟨_, a', _, hret, h'⟩

/-- A result that is already there. -/
theorem Guarded.pure (x : A) : Guarded b (Pure.pure x : Action A) :=
  fun _ a all h => Or.inl ⟨x, a, all, Effect.returns_pure.mpr ⟨rfl, rfl⟩, h⟩

/-- Two operations in turn. -/
theorem Guarded.bind {f : A → Action B} (hm : Guarded b m) (hf : ∀ x, Guarded b (f x)) :
    Guarded b (m >>= f) := by
  intro full a all h
  rcases hm full a all h with ⟨x, t, rest, hret, ht⟩ | ⟨what, t, hthrow⟩
  · rcases hf x full t rest ht with ⟨y, a', rest', hret', h'⟩ | ⟨what, a', hthrow⟩
    · exact Or.inl ⟨y, a', rest', Effect.returns_bind.mpr ⟨x, t, hret, hret'⟩, h'⟩
    · exact Or.inr ⟨what, a', Effect.throws_bind.mpr (Or.inr ⟨x, t, hret, hthrow⟩)⟩
  · exact Or.inr ⟨what, t, Effect.throws_bind.mpr (Or.inl hthrow)⟩

/-- Changing the result. -/
theorem Guarded.map (hm : Guarded b m) (g : A → B) : Guarded b (g <$> m) :=
  hm.bind fun x => Guarded.pure (g x)

/-- The loop of the readers of variable-length integers. -/
theorem guarded_varint (hb : 1 ≤ b) (w iterations i result : ℕ) :
    Guarded b (readVarint w iterations i result) := by
  induction iterations generalizing i result with
  | zero => exact Guarded.pure result
  | succ iterations ih =>
    refine Guarded.bind (Guarded.map (Guarded.get hb (by decide)) _) fun byte => ?_
    split
    · exact Guarded.pure _
    · exact ih _ _

/-- The readers of integers of fixed width. -/
theorem guarded_fixed (hb : 1 ≤ b) (hn : 1 ≤ n) : Guarded b (readFixed n) :=
  Guarded.bind (Guarded.get hb hn) fun _ => Guarded.pure _

/-- All readers of typed values. -/
theorem guarded_kind (hb : 1 ≤ b) (kind : Kind) : Guarded b kind.reader := by
  cases kind with
  | fint8 => exact (Guarded.get hb (by decide)).map _
  | fuint8 => exact (Guarded.get hb (by decide)).map _
  | fint16 => exact (guarded_fixed hb (by decide)).map _
  | fuint16 => exact (guarded_fixed hb (by decide)).map _
  | fint32 => exact (guarded_fixed hb (by decide)).map _
  | fuint32 => exact (guarded_fixed hb (by decide)).map _
  | fint64 => exact (guarded_fixed hb (by decide)).map _
  | fuint64 => exact (guarded_fixed hb (by decide)).map _
  | int32 => exact ((guarded_varint hb 32 5 0 0).map _).map _
  | uint32 => exact (guarded_varint hb 32 5 0 0).map _
  | int64 => exact ((guarded_varint hb 64 10 0 0).map _).map _
  | uint64 => exact (guarded_varint hb 64 10 0 0).map _
  | float => exact (guarded_fixed hb (by decide)).map _
  | double => exact (guarded_fixed hb (by decide)).map _

/-- An operation that throws nothing but `out_of_range` follows no null pointer. -/
theorem Guarded.safe (hm : Guarded b m) (h : Unread b full a all) :
    ¬ (m.Throws a .nullNode a') := by
  intro hnull
  rcases hm full a all h with ⟨x, t, _, hret, _⟩ | ⟨what, t, hthrow⟩
  · exact hret.not_throws hnull
  · have heq := hthrow.symm.trans hnull
    simp at heq

/-- The length of a string, read from two bytes. -/
theorem Unread.length_zero_iff (h : Unread b full a all) (hb : 1 ≤ b) {len : ℕ} {rest : List UInt8}
    (hret : (UInt16.toNat <$> readFuint16).Returns a len a') (ht : Unread b full a' rest) :
    len = 0 ∧ rest = [] ↔ all = [0, 0] := by
  obtain ⟨hlt, rest', rfl, ht'⟩ := h.readLength hb hret
  obtain rfl : rest = rest' := ht.unread.symm.trans ht'.unread
  constructor
  · rintro ⟨rfl, rfl⟩
    rfl
  · intro hall
    have hheader : LengthFormat.f16.header len = [UInt8.ofNat (len / 256), UInt8.ofNat len] := rfl
    rw [hheader] at hall
    obtain ⟨hhigh, htail⟩ := List.cons.inj hall
    obtain ⟨hlow, hrest⟩ := List.cons.inj htail
    have hhigh' := congrArg UInt8.toNat hhigh
    have hlow' := congrArg UInt8.toNat hlow
    rw [UInt8.toNat_ofNat'] at hhigh' hlow'
    have hhigh'' : len / 256 % 2 ^ 8 = 0 := hhigh'
    have hlow'' : len % 2 ^ 8 = 0 := hlow'
    exact ⟨by omega, hrest⟩

/-- When the readers of strings follow a null pointer. -/
theorem Unread.readString_null_iff (h : Unread b full a all) (hb : 1 ≤ b) :
    (∃ a', readStringF16.Throws a .nullNode a') ↔ all = [0, 0] ∧ full := by
  have hlength : Guarded b (UInt16.toNat <$> readFuint16) := ((guarded_fixed hb (by decide)).map _).map _
  constructor
  · rintro ⟨a', hnull⟩
    rcases Effect.throws_bind.mp hnull with hthrow | ⟨len, t, hret, hthrow⟩
    · exact absurd hthrow (hlength.safe h)
    · obtain ⟨_, rest, _, ht⟩ := h.readLength hb hret
      rcases Nat.eq_zero_or_pos len with rfl | hpos
      · rcases ht.get_zero with ⟨hrest, hfull, _⟩ | ⟨_, hret'⟩
        · exact ⟨(h.length_zero_iff hb hret ht).mp ⟨rfl, hrest⟩, hfull⟩
        · exact absurd hthrow hret'.not_throws
      · exact absurd hthrow ((Guarded.get hb hpos).safe ht)
  · rintro ⟨hall, hfull⟩
    rcases hlength full a all h with ⟨len, t, rest, hret, ht⟩ | ⟨what, t, hthrow⟩
    · obtain ⟨rfl, hrest⟩ := (h.length_zero_iff hb hret ht).mpr hall
      rcases ht.get_zero with ⟨_, _, hnull⟩ | ⟨hinside, _⟩
      · exact ⟨t, Effect.throws_bind.mpr (Or.inr ⟨0, t, hret, hnull⟩)⟩
      · exact absurd ⟨hrest, hfull⟩ hinside
    · have hreads : Reads b readFuint16 0 [0, 0] := (reads_fixed hb (by decide) (by decide)).map rfl
      obtain ⟨t', hret, _⟩ := (hreads.map (g := UInt16.toNat) rfl) full a [] (by rwa [List.append_nil, ← hall])
      exact absurd hthrow hret.not_throws

/-- `toString` completes. -/
theorem Inv.toString_eq (h : Inv b a) (hb : 0 < b) : a.toString = .ok (a.contents.drop a.position) := by
  have hpos := h.position_le
  have hle := h.size_le
  have hlength := h.length_contents
  unfold ByteArray.toString getReadSize
  split
  · rw [List.drop_of_length_le (by omega)]
  · have hsame : SameBytes a (a.size - a.position) a.position := by
      rw [SameBytes, position_split]
    have hcurr : a.position ≠ a.capacity := by omega
    have hright := (h.readLoop_iff hb (by omega) hcurr).mpr hsame
    rw [readAt, if_neg (by rw [subSize, if_pos hpos]; omega), hright,
      List.take_of_length_le (by rw [List.length_drop]; omega)]

/-- The unread bytes of an array. -/
theorem Inv.toUnread (h : Inv b a) : Unread b (a.size = a.capacity) a (a.contents.drop a.position) :=
  ⟨h, rfl, Iff.rfl⟩

/-- The result of an operation plays no part. -/
theorem throws_map {g : A → B} {e : ByteArrayFault} : (g <$> m).Throws a e a' ↔ m.Throws a e a' := by
  change (m >>= fun x => Pure.pure (g x)).Throws a e a' ↔ _
  rw [Effect.throws_bind]
  refine or_iff_left ?_
  rintro ⟨x, t, _, hthrow⟩
  exact (Effect.returns_pure.mpr ⟨rfl, rfl⟩ : (Pure.pure (g x) : Action B).Returns t (g x) t).not_throws hthrow

/-- In every reached state an operation of the read family follows a null pointer exactly at the end of the
chain, where `read` is asked for no bytes or a string has the length zero. -/
theorem reader_safe_iff (hb : 1 ≤ b) (content : ℕ → UInt8)
    (h : Runs.Reaches step (fun _ _ => True) (new b content) a) (reader : Reader) :
    reader.Safe a ↔ ¬ reader.AtEndOfChain a := by
  have hinv := inv_of_reaches hb content h
  have hunread := hinv.toUnread
  have hlength := hinv.length_contents
  have hpos := hinv.position_le
  have hle := hinv.size_le
  unfold Reader.Safe
  rw [← not_exists, not_iff_not]
  cases reader with
  | read size =>
    simp only [Reader.perform, Reader.AtEndOfChain, throws_map]
    rcases Nat.eq_zero_or_pos size with rfl | hsize
    · have hend : a.contents.drop a.position = [] ∧ a.size = a.capacity ↔ a.position = a.capacity := by
        rw [List.drop_eq_nil_iff]
        omega
      rcases hunread.get_zero with ⟨hrest, hfull, hnull⟩ | ⟨hinside, hret⟩
      · exact iff_of_true ⟨a, hnull⟩ ⟨rfl, hend.mp ⟨hrest, hfull⟩⟩
      · refine iff_of_false ?_ fun hbad => hinside (hend.mpr hbad.2)
        rintro ⟨a', hnull⟩
        exact hret.not_throws hnull
    · refine iff_of_false ?_ fun hbad => hsize.ne' hbad.1
      rintro ⟨a', hnull⟩
      exact (Guarded.get hb hsize).safe hunread hnull
  | value kind =>
    simp only [Reader.perform, Reader.AtEndOfChain, throws_map]
    refine iff_of_false ?_ id
    rintro ⟨a', hnull⟩
    exact (guarded_kind hb kind).safe hunread hnull
  | string format =>
    simp only [Reader.perform, Reader.AtEndOfChain, throws_map, format.reader_eq]
    exact hunread.readString_null_iff hb
  | toString =>
    simp only [Reader.perform, Reader.AtEndOfChain, Effect.throws_of, hinv.toString_eq hb]
    refine iff_of_false ?_ id
    rintro ⟨a', hnull⟩
    cases (Prod.mk.inj hnull).2
  | toHexString =>
    simp only [Reader.perform, Reader.AtEndOfChain, Effect.throws_of, ByteArray.toHexString,
      hinv.toString_eq hb]
    refine iff_of_false ?_ id
    rintro ⟨a', hnull⟩
    cases (Prod.mk.inj hnull).2
  | getReadBuffers len =>
    obtain ⟨buffers, heq, _⟩ := hinv.getReadBuffers hb len
    simp only [Reader.perform, Reader.AtEndOfChain, Effect.throws_of, heq]
    refine iff_of_false ?_ id
    rintro ⟨a', hnull⟩
    cases (Prod.mk.inj hnull).2

/-- Two bytes of zero fill the only node. -/
theorem reaches_twoZeros : ∃ a, Runs.Reaches step (fun _ _ => True) (new 2 fun _ => 0) a ∧
    a.contents.drop a.position = [0, 0] ∧ a.size = a.capacity := by
  have hwrite : Runs.Reaches step (fun _ _ => True) (new 2 fun _ => 0) _ :=
    .next .start (.write [0, 0] fun _ _ => 0) trivial rfl
  exact ⟨_, hwrite.next (.setPosition 0) trivial rfl, rfl, rfl⟩

/-- An integer of two bytes can be read there. -/
theorem reader_safe_iff_twoZeros : ∃ a, a.contents.drop a.position = [0, 0] ∧
    (Reader.value .fuint16).Safe a := by
  obtain ⟨a, hreach, hunread, _⟩ := reaches_twoZeros
  exact ⟨a, hunread, (reader_safe_iff (by decide) _ hreach (.value .fuint16)).mpr id⟩

/-- An empty string cannot. -/
theorem not_reader_safe_twoZeros : ∃ a, Runs.Reaches step (fun _ _ => True) (new 2 fun _ => 0) a ∧
    ¬ (Reader.string .f16).Safe a := by
  obtain ⟨a, hreach, hunread, hfull⟩ := reaches_twoZeros
  have hinv := inv_of_reaches (by decide) _ hreach
  refine ⟨a, hreach, fun hsafe => ?_⟩
  obtain ⟨a', hnull⟩ := (hinv.toUnread.readString_null_iff (by decide)).mpr ⟨hunread, hfull⟩
  exact hsafe a' (throws_map.mpr hnull)

end ByteArray

end Bobliew
