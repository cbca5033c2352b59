import StackLang.Lexer
import StackLang.Reader

namespace StackLang

def replies {κ σ ρ : Type} (reply : κ → σ → ρ × σ) : List κ → σ → List ρ
  | [], _ => []
  | k :: ks, s => (reply k s).1 :: replies reply ks (reply k s).2

theorem replies_eq {κ σ τ ρ : Type} {f : κ → σ → ρ × σ} {g : κ → τ → ρ × τ} (R : σ → τ → Prop)
    (h : ∀ k s t, R s t → (f k s).1 = (g k t).1 ∧ R (f k s).2 (g k t).2) {s : σ} {t : τ}
    (hst : R s t) (ks : List κ) : replies f ks s = replies g ks t := by
  induction ks generalizing s t with
  | nil => rfl
  | cons k ks ih =>
    obtain ⟨hreply, hnext⟩ := h k s t hst
    rw [replies, replies, hreply, ih hnext]

section Repeated

variable {κ σ ρ : Type} {f : κ → σ → ρ × σ}

theorem replies_idle {k : κ} (hk : ∀ s, (f k s).2 = s) (before behind : List κ) (n : Nat) (s : σ) :
    ∃ a x b, replies f (before ++ behind) s = a ++ b ∧ a.length = before.length ∧
      replies f (before ++ List.replicate n k ++ behind) s = a ++ List.replicate n x ++ b := by
  induction before generalizing s with
  | nil =>
    refine ⟨[], (f k s).1, replies f behind s, rfl, rfl, ?_⟩
    induction n with
    | zero => rfl
    | succ n ih =>
      simp only [List.nil_append, List.replicate_succ, List.cons_append] at ih ⊢
      rw [replies, hk, ih]
  | cons k' before ih =>
    obtain ⟨a, x, b, hab, hlen, hall⟩ := ih (f k' s).2
    refine ⟨(f k' s).1 :: a, x, b, ?_, by rw [List.length_cons, hlen, List.length_cons], ?_⟩
    · rw [List.cons_append, replies, hab, List.cons_append]
    · rw [List.cons_append, List.cons_append, replies, hall, List.cons_append, List.cons_append]

end Repeated

def seen {σ α : Type} : EStateM.Result Failure σ α → Except Failure α × σ
  | .ok a s => (.ok a, s)
  | .error e s => (.error e, s)

namespace Reader

inductive Call where
  | read
  | peek
  deriving Repr, DecidableEq

def reply : Call → Reader → Except Failure (Option Char) × Reader
  | .read, r => seen (r.read)
  | .peek, r => seen (r.peek)

theorem peek_idle (r : Reader) : (reply .peek r).2 = r := by
  simp only [reply, peek]
  split
  · rfl
  · split <;> rfl

end Reader

namespace Lexer

/-- What a lexer finds in its source. -/
def consult : Reader.Call → Lexer → Except Failure (Option Char) × Lexer
  | .read, s => seen (read s)
  | .peek, s => seen (peek s)

theorem replies_consult (closable : Bool) (calls : List Reader.Call) (s : Lexer) :
    replies consult calls s = replies Reader.reply calls ⟨s.rest, closable, false⟩ := by
  refine replies_eq (fun s r => r = ⟨s.rest, closable, false⟩) ?_ rfl calls
  rintro call ⟨_ | ⟨⟨sight, value⟩, cs⟩, line, column⟩ _ rfl
  · cases call <;> exact ⟨rfl, rfl⟩
  · cases call with
    | read => cases value <;> exact ⟨rfl, rfl⟩
    | peek => cases sight <;> exact ⟨rfl, rfl⟩

end Lexer

namespace Utf8

def decode? : List UInt8 → Option (List Char)
  | [] => some []
  | b :: bs =>
    match head? (b :: bs) with
    | some (c, k) => (decode? (bs.drop (k - 1))).map (c :: ·)
    | none => none
termination_by bs => bs.length
decreasing_by
  simp only [List.length_drop, List.length_cons]
  omega

def first? : Option (List Char) → Except Failure (Option Char)
  | some cs => .ok cs.head?
  | none => .error (.crash .undecodable)

end Utf8

namespace Source

open Utf8

theorem drop_ofBytes (k : Nat) (bs : List UInt8) : (ofBytes bs).drop k = ofBytes (bs.drop k) := by
  induction k generalizing bs with
  | zero => rfl
  | succ k ih =>
    cases bs with
    | nil => rfl
    | cons b bs => exact ih bs

theorem glimpse_cons (c : Cell) (cs : Source) : glimpse (c :: cs) = c.sight.elim .blind .char := by
  rw [glimpse]
  cases c.sight <;> rfl

def shown : Option (List Char) → Glimpse
  | some [] => .finish
  | some (c :: _) => .char c
  | none => .blind

theorem glimpse_ofBytes (bs : List UInt8) : glimpse (ofBytes bs) = shown (decode? bs) := by
  induction bs using decode?.induct with
  | case1 =>
    rw [decode?]
    rfl
  | case2 b bs c k hhead ih =>
    rw [decode?, hhead, ofBytes]
    simp only [glimpse_cons, hhead, Option.bind_eq_bind, Option.bind_some, drop_ofBytes, ih]
    cases decode? (bs.drop (k - 1)) with
    | none => rfl
    | some cs => cases cs <;> rfl
  | case3 b bs hhead =>
    rw [decode?, hhead, ofBytes]
    simp only [glimpse_cons, hhead]
    rfl

end Source

/-- A byte stream whose buffer holds all the bytes that are left. -/
structure Buffered where
  bytes : List UInt8

namespace Buffered

/-- Reading takes a byte and decodes it by itself; looking ahead decodes the whole buffer. -/
def reply : Reader.Call → Buffered → Except Failure (Option Char) × Buffered
  | .read, s => (Utf8.first? (Utf8.decode? (s.bytes.take 1)), ⟨s.bytes.drop 1⟩)
  | .peek, s => (Utf8.first? (Utf8.decode? s.bytes), s)

end Buffered

/-- A text with a place in it. -/
structure Seekable where
  text : List Char
  place : Nat

namespace Seekable

def tell (s : Seekable) : Nat := s.place

def seek (s : Seekable) (place : Nat) : Seekable := { s with place }

def read (s : Seekable) : Option Char × Seekable :=
  match s.text[s.place]? with
  | some c => (some c, s.seek (s.place + 1))
  | none => (none, s)

def reply : Reader.Call → Seekable → Except Failure (Option Char) × Seekable
  | .read, s => (.ok s.read.1, s.read.2)
  | .peek, s => (.ok s.read.1, s.read.2.seek s.tell)

end Seekable

theorem Utf8.decode?_singleton (b : UInt8) :
    decode? [b] = if b < 0x80 then some [Char.ofNat b.toNat] else none := by
  rw [decode?]
  by_cases hb : b < 0x80
  · simp [head?, hb, decode?]
  · simp [head?, hb]

theorem replies_ofBytes (calls : List Reader.Call) (bs : List UInt8) :
    replies Reader.reply calls (.ofBytes bs) = replies Buffered.reply calls ⟨bs⟩ := by
  refine replies_eq (fun r s => r.closed = false ∧ r.rest = .ofBytes s.bytes) ?_ ⟨rfl, rfl⟩ calls
  rintro call ⟨rest, closable, closed⟩ ⟨bs⟩ ⟨rfl, rfl⟩
  cases call with
  | read =>
    cases bs with
    | nil =>
      rw [Buffered.reply, List.take_nil, Utf8.decode?]
      exact ⟨rfl, rfl, rfl⟩
    | cons b bs =>
      rw [Buffered.reply, List.take_succ_cons, List.take_zero, Utf8.decode?_singleton]
      simp only [Reader.reply, Reader.read, Source.ofBytes]
      by_cases hb : b < 0x80
      · simp only [if_pos hb]
        exact ⟨rfl, rfl, rfl⟩
      · simp only [if_neg hb]
        exact ⟨rfl, rfl, rfl⟩
  | peek =>
    simp only [Reader.reply, Reader.peek, Buffered.reply, Source.glimpse_ofBytes]
    cases Utf8.decode? bs with
    | none => exact ⟨rfl, rfl, rfl⟩
    | some cs => cases cs <;> exact ⟨rfl, rfl, rfl⟩

theorem replies_ofText (calls : List Reader.Call) (s : String) :
    replies Reader.reply calls (.ofText s) = replies Seekable.reply calls ⟨s.toList, 0⟩ := by
  refine replies_eq
    (fun r s => r.closed = false ∧ r.rest = (s.text.drop s.place).map Cell.ofChar) ?_ ⟨rfl, rfl⟩
    calls
  rintro call ⟨rest, closable, closed⟩ ⟨text, place⟩ ⟨rfl, rfl⟩
  cases hc : text[place]? with
  | none =>
    have hdrop : text.drop place = [] := by simpa using hc
    cases call with
    | read =>
      simp only [Reader.reply, Reader.read, Seekable.reply, Seekable.read, hc, hdrop]
      exact ⟨rfl, rfl, rfl⟩
    | peek =>
      simp only [Reader.reply, Reader.peek, Seekable.reply, Seekable.read, hc, hdrop, Seekable.seek,
        Seekable.tell]
      exact ⟨rfl, rfl, rfl⟩
  | some c =>
    have hdrop : text.drop place = c :: text.drop (place + 1) := by
      obtain ⟨hlt, rfl⟩ := List.getElem?_eq_some_iff.1 hc
      exact List.drop_eq_getElem_cons hlt
    cases call with
    | read =>
      simp only [Reader.reply, Reader.read, Seekable.reply, Seekable.read, hc, hdrop, Seekable.seek]
      exact ⟨rfl, rfl, rfl⟩
    | peek =>
      simp only [Reader.reply, Reader.peek, Seekable.reply, Seekable.read, hc, hdrop, List.map_cons,
        Source.glimpse_cons, Seekable.seek, Seekable.tell]
      exact ⟨rfl, rfl, rfl⟩

/-- A text that replies to calls: reads take its characters one by one and looks take none. -/
def serve : Reader.Call → List Char → Except Failure (Option Char) × List Char
  | .read, cs => (.ok cs.head?, cs.tail)
  | .peek, cs => (.ok cs.head?, cs)

theorem replies_seekable (calls : List Reader.Call) (cs : List Char) :
    replies Seekable.reply calls ⟨cs, 0⟩ = replies serve calls cs := by
  refine replies_eq (fun s cs => cs = s.text.drop s.place) ?_ rfl calls
  rintro call ⟨text, place⟩ _ rfl
  cases call with
  | read =>
    simp only [Seekable.reply, Seekable.read, serve, List.head?_drop, List.tail_drop]
    cases hc : text[place]? with
    | some c => exact ⟨rfl, rfl⟩
    | none =>
      have hlen : text.length ≤ place := by simpa using hc
      exact ⟨rfl, by simp [List.drop_eq_nil_of_le hlen,
        List.drop_eq_nil_of_le (Nat.le_succ_of_le hlen)]⟩
  | peek =>
    simp only [Seekable.reply, Seekable.read, serve, List.head?_drop]
    cases hc : text[place]? <;> exact ⟨rfl, rfl⟩

theorem toList_loop (bytes : ByteArray) (i : Nat) (r : List UInt8) :
    ByteArray.toList.loop bytes i r = r.reverse ++ bytes.data.toList.drop i := by
  induction h : bytes.size - i generalizing i r with
  | zero =>
    have hlen : bytes.data.toList.length ≤ i := Nat.sub_eq_zero_iff_le.1 h
    rw [ByteArray.toList.loop, if_neg (by omega), List.drop_eq_nil_of_le hlen, List.append_nil]
  | succ n ih =>
    have hi : i < bytes.data.toList.length := Nat.lt_of_sub_eq_succ h
    have hget : bytes.get! i = bytes.data.toList[i] := getElem!_pos bytes.data i hi
    rw [ByteArray.toList.loop, if_pos (by omega), ih _ _ (by omega), List.drop_eq_getElem_cons hi,
      hget, List.reverse_cons, List.append_assoc, List.singleton_append]

def byte (c : Char) : UInt8 := c.val.toUInt8

def isAscii (cs : List Char) : Bool := cs.all fun c => c.toNat < 0x80

section Ascii

variable {c : Char} {cs : List Char}

theorem isAscii_cons : isAscii (c :: cs) ↔ c.toNat < 0x80 ∧ isAscii cs := by
  simp [isAscii]

theorem toNat_byte (h : c.toNat < 0x80) : (byte c).toNat = c.toNat := by
  rw [byte, UInt32.toNat_toUInt8]
  exact Nat.mod_eq_of_lt (Nat.lt_trans h (by decide))

theorem byte_lt (h : c.toNat < 0x80) : byte c < 0x80 := by
  rw [UInt8.lt_iff_toNat_lt, toNat_byte h]
  exact h

theorem head?_byte (h : c.toNat < 0x80) (bs : List UInt8) :
    Utf8.head? (byte c :: bs) = some (c, 1) := by
  rw [Utf8.head?, if_pos (byte_lt h), toNat_byte h, Char.ofNat_toNat]

theorem flatMap_encode (h : isAscii cs) : cs.flatMap String.utf8EncodeChar = cs.map byte := by
  induction cs with
  | nil => rfl
  | cons c cs ih =>
    obtain ⟨hc, hcs⟩ := isAscii_cons.1 h
    have hsize : c.utf8Size = 1 := Char.utf8Size_eq_one_iff.2 (Nat.le_of_lt_succ hc)
    rw [List.flatMap_cons, ih hcs, String.utf8EncodeChar_eq_singleton hsize]
    rfl

theorem toUTF8_ascii {s : String} (h : isAscii s.toList) :
    s.toUTF8.toList = s.toList.map byte := by
  rw [ByteArray.toList, toList_loop, String.toUTF8, ← String.utf8Encode_toList, List.utf8Encode,
    List.toList_data_toByteArray, flatMap_encode h]
  rfl

theorem decode?_ascii (h : isAscii cs) : Utf8.decode? (cs.map byte) = some cs := by
  induction cs with
  | nil =>
    rw [List.map_nil, Utf8.decode?]
  | cons c cs ih =>
    obtain ⟨hc, hcs⟩ := isAscii_cons.1 h
    rw [List.map_cons, Utf8.decode?, head?_byte hc]
    simp [ih hcs]

theorem ofBytes_ascii (h : isAscii cs) : Source.ofBytes (cs.map byte) = cs.map Cell.ofChar := by
  induction cs with
  | nil => rfl
  | cons c cs ih =>
    obtain ⟨hc, hcs⟩ := isAscii_cons.1 h
    rw [List.map_cons, Source.ofBytes]
    simp only [head?_byte hc, Option.bind_eq_bind, Option.bind_some, Nat.sub_self, List.drop_zero,
      ih hcs, if_pos (byte_lt hc), toNat_byte hc, Char.ofNat_toNat]
    cases cs <;> rfl

theorem replies_buffered (calls : List Reader.Call) (h : isAscii cs) :
    replies Buffered.reply calls ⟨cs.map byte⟩ = replies serve calls cs := by
  refine replies_eq (fun s cs => s.bytes = cs.map byte ∧ isAscii cs) ?_ ⟨rfl, h⟩ calls
  rintro call ⟨_⟩ cs ⟨rfl, hcs⟩
  cases call with
  | read =>
    cases cs with
    | nil =>
      rw [Buffered.reply, serve, List.map_nil, List.take_nil, Utf8.decode?]
      exact ⟨rfl, rfl, rfl⟩
    | cons c cs =>
      have hc : isAscii [c] := isAscii_cons.2 ⟨(isAscii_cons.1 hcs).1, rfl⟩
      have htake : ((c :: cs).map byte).take 1 = [c].map byte := rfl
      rw [Buffered.reply, serve, htake, decode?_ascii hc]
      exact ⟨rfl, rfl, (isAscii_cons.1 hcs).2⟩
  | peek =>
    rw [Buffered.reply, serve, decode?_ascii hcs]
    exact ⟨rfl, rfl, hcs⟩

end Ascii

namespace Lexer

inductive Call where
  | next
  | read
  | peek
  | moveToNextLine
  deriving Repr, DecidableEq

inductive Answer where
  | token (t : Token)
  | char (c : Option Char)
  | done
  deriving Repr, DecidableEq

/-- What a call shows: its answer, or how it fails, what it prints and the place that is reached. -/
structure Sighting where
  answer : Except Failure Answer
  output : String
  line : Nat
  column : Nat

def answer : Call → Scan Answer
  | .next => return .token (← next)
  | .read => return .char (← read)
  | .peek => return .char (← peek)
  | .moveToNextLine => do
    moveToNextLine
    return .done

def reply (call : Call) (s : Lexer) : Sighting × Lexer :=
  match answer call s with
  | .ok a s' => (⟨.ok a, "", s'.line, s'.column⟩, s')
  | .error e s' => (⟨.error e, e.notice, s'.line, s'.column⟩, s')

end Lexer

/-- On ASCII a lexer over the bytes of a text and one over the text itself show the same under all
calls, and so do the readers below them; no look changes what any reader replies to the other
calls. -/
theorem ascii_fed_alike (s : String) (hs : isAscii s.toList) :
    (∀ calls, replies Lexer.reply calls (.ofSource (.ofBytes s.toUTF8.toList)) =
      replies Lexer.reply calls (.ofSource (.ofText s))) ∧
    (∀ calls, replies Reader.reply calls (.ofBytes s.toUTF8.toList) =
        replies serve calls s.toList ∧
      replies Reader.reply calls (.ofText s) = replies serve calls s.toList) ∧
    ∀ (r : Reader) (before behind : List Reader.Call) (n : Nat),
      ∃ a x b, replies Reader.reply (before ++ behind) r = a ++ b ∧ a.length = before.length ∧
        replies Reader.reply (before ++ List.replicate n .peek ++ behind) r =
          a ++ List.replicate n x ++ b := by
  refine ⟨fun calls => ?_, fun calls => ⟨?_, ?_⟩, fun r before behind n => ?_⟩
  · rw [toUTF8_ascii hs, ofBytes_ascii hs]
    rfl
  · rw [replies_ofBytes, toUTF8_ascii hs, replies_buffered calls hs]
  · rw [replies_ofText, replies_seekable]
  · exact replies_idle Reader.peek_idle before behind n r

theorem leading_zero_fed_alike :
    isAscii "x = 05; y".toList ∧
      replies Lexer.reply [.next, .peek, .next, .next, .read, .moveToNextLine, .next]
          (.ofSource (.ofBytes "x = 05; y".toUTF8.toList)) =
        replies Lexer.reply [.next, .peek, .next, .next, .read, .moveToNextLine, .next]
          (.ofSource (.ofText "x = 05; y")) := by
  have hs : isAscii "x = 05; y".toList := by decide
  exact ⟨hs, (ascii_fed_alike _ hs).1 _⟩

end StackLang
