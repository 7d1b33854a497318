/-
What `clear()` leaves behind.

The offsets of the headers are cleared and the header text is not.  From then on the
message differs from a new one in the text before its headers, which no call that
examines the message reads, and which every send writes.
-/
import Psets.Http.Copy

namespace Psets
namespace Http
namespace HttpMessage

variable {text : Str} {a b : HttpMessage}

/-- The message after a sequence of calls that edit it. -/
def edited (m : HttpMessage) (edits : List Edit) : HttpMessage := edits.foldl HttpMessage.edit m

def KvOffsets.shift (n : Nat) (p : KvOffsets) : KvOffsets :=
  ⟨n + p.name1, n + p.name2, n + p.value1, n + p.value2⟩

theorem view_append (text base : Str) (first last : Nat) :
    view (text ++ base) (text.length + first) (text.length + last) = view base first last := by
  rw [view, view, List.drop_length_add_append, Nat.add_sub_add_left]

/-- `b` is `a` with more text before its headers, but for what is known about the URL. -/
def Stale (text : Str) (a b : HttpMessage) : Prop :=
  b = { a with
    headers := text ++ a.headers
    hpairs := a.hpairs.map (KvOffsets.shift text.length)
    info := b.info }

theorem Stale.sameFields (h : Stale [] a b) : SameFields a b := by
  have hshift : KvOffsets.shift 0 = id := by
    funext p
    simp [KvOffsets.shift]
  unfold Stale at h
  rw [List.length_nil, hshift, List.map_id] at h
  exact h

theorem Stale.fields (h : Stale text a b) :
    b.method = a.method ∧ b.url = a.url ∧ b.statusCode = a.statusCode ∧
      b.statusMessage = a.statusMessage ∧ b.hasBody = a.hasBody ∧ b.body = a.body ∧
      b.httpVersion = a.httpVersion := by
  rw [h]
  exact ⟨rfl, rfl, rfl, rfl, rfl, rfl, rfl⟩

theorem Stale.headers (h : Stale text a b) : b.headers = text ++ a.headers := by
  rw [h]

/-- The headers are the same. -/
theorem Stale.headerList (h : Stale text a b) : b.headerList = a.headerList := by
  rw [h, HttpMessage.headerList, HttpMessage.headerList, List.map_map]
  refine List.map_congr_left fun p _ => ?_
  simp only [Function.comp, KvOffsets.shift, KvOffsets.name, KvOffsets.value, view_append]

theorem Stale.hasHeader (h : Stale text a b) (name : Str) :
    b.hasHeader name = a.hasHeader name := by
  rw [HttpMessage.hasHeader, h.headerList, HttpMessage.hasHeader]

/-! ## Editing -/

theorem Stale.addHeader (h : Stale text a b) (key value : Str) :
    Stale text (a.addHeader key value) (b.addHeader key value) := by
  have hcrlf : crlf.length = 2 := rfl
  rw [Stale, h]
  simp only [HttpMessage.addHeader, List.length_append, hcrlf, Nat.add_sub_cancel]
  simp only [List.map_append, List.map_cons, List.map_nil, KvOffsets.shift, List.append_assoc,
    Nat.add_assoc]

theorem Stale.body (h : Stale text a b) (str : Str) :
    Stale text { a with body := str, hasBody := true } { b with body := str, hasBody := true } := by
  rw [h]
  rfl

theorem Stale.edit (h : Stale text a b) (e : Edit) : Stale text (a.edit e) (b.edit e) := by
  cases e with
  | addHeader key value => exact h.addHeader key value
  | json dump =>
    refine Stale.body ?_ dump
    rw [h.hasHeader]
    split
    · exact h
    · exact h.addHeader _ _
  | body str => exact h.body str
  | clear | httpMajor | httpMinor | error | statusCode | method | url | appendBody =>
    rw [h]
    rfl

theorem Stale.edited (h : Stale text a b) (edits : List Edit) :
    Stale text (a.edited edits) (b.edited edits) := by
  induction edits generalizing a b with
  | nil => exact h
  | cons e edits ih => exact ih (h.edit e)

theorem Coherent.edited (h : Coherent a) (edits : List Edit) : Coherent (a.edited edits) := by
  induction edits generalizing a with
  | nil => exact h
  | cons e edits ih => exact ih (h.edit e)

/-- A message that was cleared, and a new one. -/
theorem clear_stale (m : HttpMessage) : Stale m.headers {} m.clear := by
  rw [Stale, HttpMessage.clear]
  simp

theorem clear_coherent (m : HttpMessage) : Coherent m.clear := by
  refine .of_clear fun inf hinf => ?_
  obtain ⟨old, _, rfl⟩ := Option.map_eq_some_iff.1 hinf
  rfl

/-! ## Sending -/

theorem Stale.addContentLength (h : Stale text a b) :
    Stale text a.addContentLength b.addContentLength := by
  obtain ⟨_, _, _, _, hhas, hbody, _⟩ := h.fields
  unfold HttpMessage.addContentLength
  rw [hhas, hbody, h.hasHeader, h.hasHeader]
  split
  · exact h.addHeader _ _
  · exact h

/-- A send writes the text that was left. -/
theorem Stale.length_sendRequest (h : Stale text a b) (methodName : Nat → Str) (host : Str) :
    (sendRequest methodName host b).length =
      text.length + (sendRequest methodName host a).length := by
  have hhost : Stale text
      (if !host.isEmpty && !a.hasHeader "host".toList then a.addHeader "Host".toList host else a)
      (if !host.isEmpty && !b.hasHeader "host".toList then b.addHeader "Host".toList host
        else b) := by
    rw [h.hasHeader]
    split
    · exact h.addHeader _ _
    · exact h
  obtain ⟨_, _, _, _, _, hbody, _⟩ := hhost.addContentLength.fields
  obtain ⟨hmethod, hurl, _, _, _, _, hversion⟩ := h.fields
  unfold HttpMessage.sendRequest
  simp only []
  rw [hmethod, hurl, hversion, hhost.addContentLength.headers, hbody]
  simp only [List.length_append]
  omega

/-- A message that is cleared and edited is as good as a new one that is edited, whatever the
edits are, exactly when it had no header text. -/
theorem clear_faithful_iff (m : HttpMessage) (edits : List Edit) :
    Faithful (edited {} edits) (m.clear.edited edits) ↔ m.headers = [] := by
  have hstale := (clear_stale m).edited edits
  constructor
  · intro h
    have hlength := hstale.length_sendRequest (fun _ => []) []
    rw [h.request] at hlength
    exact List.eq_nil_of_length_eq_zero (by omega)
  · intro hnil
    rw [hnil] at hstale
    exact hstale.sameFields.faithful ((Coherent.of_none rfl).edited edits)
      ((clear_coherent m).edited edits)

/-- A message with a header is cleared, and sent with it. -/
theorem withHost_cleared :
    ¬ ∀ (m : HttpMessage) (edits : List Edit),
      Faithful (edited {} edits) (m.clear.edited edits) := by
  intro h
  have hheaders := (clear_faithful_iff withHost []).1 (h withHost [])
  exact absurd hheaders (by decide)

end HttpMessage
end Http
end Psets
