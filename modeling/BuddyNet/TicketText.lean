import BuddyNet.Go.Base64Text
import BuddyNet.Ticket

/-!
# The text of a ticket

What `Sign` writes, `Parse` reads.

* `Payload.WellFormed` is what the parser asks of a payload besides its size;
* `parse_marshal`: the text of such a payload is parsed to it, if it is at most `maxPayloadLen`
  long;
* `marshal_length`: how long the text is. The ids, the leg and the version have a fixed length, the
  two times have their digits, and the string of the ephemeral key has 43 characters and any number
  of line breaks.
-/

namespace BuddyNet.Ticket

open Go Go.Json List

/-! ### Ids -/

variable {s : Bytes}

section

variable (h : validID s = true)
include h

/-- An id is the text of sixteen bytes. -/
theorem validID_spec : ∃ raw, raw.length = idLen ∧ s = rawURLEncoding.encode raw := by
  unfold validID at h
  split_ifs at h
  split at h
  · cases h
  · next raw _ =>
    simp only [Bool.and_eq_true, beq_iff_eq] at h
    exact ⟨raw, h.1, h.2.symm⟩

theorem validID_plain : ∀ c ∈ s, Plain c := by
  obtain ⟨raw, -, rfl⟩ := validID_spec h
  exact plain_encode raw

theorem validID_length : s.length = 22 := by
  obtain ⟨raw, hlen, rfl⟩ := validID_spec h
  rw [Encoding.encode_length_raw rfl, hlen]
  rfl

theorem validID_ne_nil : s ≠ [] := by
  rintro rfl
  exact absurd h (by decide)

end

theorem validID_newID {random : Bytes} (h : random.length = idLen) :
    validID (newID random) = true := by
  have hlen : (newID random).length = 22 := by
    rw [newID, Encoding.encode_length_raw rfl, h]
    rfl
  have hdec : rawURLEncoding.decode (newID random) = some random := decode_encode_url random
  rw [validID, if_neg (not_not.2 hlen), hdec]
  simp [h, newID]

theorem validID_quote (h : validID s = true) : (quote s).length = 24 := by
  rw [quote_plain (validID_plain h), length_append, length_append, validID_length h]
  rfl

/-! ### Payloads -/

/-- The fields of a payload as they are written. -/
def Payload.fields (p : Payload) : Fields :=
  [(lit "v", intMember p.v), (lit "rid", stringMember p.rid), (lit "sid", stringMember p.sid),
    (lit "leg", stringMember p.leg), (lit "epk", stringMember p.epk), (lit "iat", intMember p.iat),
    (lit "exp", intMember p.exp), (lit "nonce", stringMember p.nonce)]

theorem marshal_eq (p : Payload) : marshal p = object p.fields.texts := by
  simp only [marshal, Payload.fields, Fields.texts, stringMember, intMember, object, filterMap,
    Option.map_some, map_cons, map_nil, intersperse, flatten_cons,
    flatten_nil, append_assoc, append_nil]
  rfl

/-- What a relay asks of a payload besides its size. -/
structure Payload.WellFormed (p : Payload) : Prop where
  ver : p.v = formatVersion
  rid : validID p.rid = true
  sid : validID p.sid = true
  leg : p.leg = legA ∨ p.leg = legB
  epk : ∃ raw, rawURLEncoding.decode p.epk = some raw ∧ raw.length = publicKeySize
  iat : -2 ^ 63 ≤ p.iat ∧ p.iat < 2 ^ 63
  exp : -2 ^ 63 ≤ p.exp ∧ p.exp < 2 ^ 63
  nonce : validID p.nonce = true

theorem utf8_of_decode {raw : Bytes} (h : rawURLEncoding.decode s = some raw) : Utf8 s :=
  utf8_of_ascii (decode_ascii h)

theorem utf8_of_validID (h : validID s = true) : Utf8 s :=
  utf8_of_plain (validID_plain h)

theorem utf8_of_leg (h : s = legA ∨ s = legB) : Utf8 s := by
  have hlegs : asciiNames [legA, legB] = true := rfl
  exact utf8_of_asciiNames hlegs (by simpa using h)

namespace Payload.WellFormed

variable {p : Payload} (h : p.WellFormed)
include h

theorem reads : Reads (marshal p) (.obj p.fields.values) 1 := by
  obtain ⟨raw, hepk, -⟩ := h.epk
  rw [marshal_eq]
  refine Fields.reads rfl ?_
  simp only [Payload.fields, forall_mem_cons]
  exact ⟨reads_intMember _ _, reads_stringMember (utf8_of_validID h.rid) _,
    reads_stringMember (utf8_of_validID h.sid) _, reads_stringMember (utf8_of_leg h.leg) _,
    reads_stringMember (utf8_of_decode hepk) _, reads_intMember _ _, reads_intMember _ _,
    reads_stringMember (utf8_of_validID h.nonce) _, nofun⟩

theorem decodePayload_values : decodePayload p.fields.values = some p := by
  have hsub : p.fields.map (·.1) ⊆ fieldNames := Subset.refl _
  have hnodup : (p.fields.map (·.1)).Nodup := by
    show fieldNames.Nodup
    decide
  have hver : -2 ^ 63 ≤ p.v ∧ p.v < 2 ^ 63 := by
    rw [h.ver]
    decide
  have hint : ∀ name n, (name, intMember n) ∈ p.fields → -2 ^ 63 ≤ n ∧ n < 2 ^ 63 →
      intField (valuesOf fieldNames p.fields.values name) = some n := by
    intro name n hmem hn
    rw [valuesOf_mem hsub hnodup hmem, intField_intMember hn.1 hn.2]
  simp only [decodePayload, allKnown_values hsub, if_true,
    hint (lit "v") p.v (by simp [Payload.fields]) hver,
    hint (lit "iat") p.iat (by simp [Payload.fields]) h.iat,
    hint (lit "exp") p.exp (by simp [Payload.fields]) h.exp]
  rfl

theorem checkPayload_eq : checkPayload p = .ok p := by
  obtain ⟨raw, hraw, hlen⟩ := h.epk
  have hpub : p.ephPub ≠ none := by simp [Payload.ephPub, hraw, hlen]
  have hleg : ¬(p.leg ≠ legA ∧ p.leg ≠ legB) := by
    rintro ⟨ha, hb⟩
    exact h.leg.elim ha hb
  simp [checkPayload, h.ver, h.rid, h.sid, h.nonce, hleg, hpub]

/-- **What is signed is parsed**, unless it is too long. -/
theorem parse_marshal (hsize : (marshal p).length ≤ maxPayloadLen) : parse (marshal p) = .ok p := by
  have hread : Json.parse (marshal p) = some (.obj p.fields.values) := h.reads.parse (by decide)
  have hpos : (marshal p).length ≠ 0 := by
    rw [marshal_eq, object_eq]
    exact Nat.succ_ne_zero _
  have hnodup : (p.fields.values.map (·.1)).Nodup := by
    refine (Fields.values_names p.fields).nodup ?_
    show fieldNames.Nodup
    decide
  rw [parse, if_neg (by omega), hread]
  simp only [hnodup, not_true_eq_false, if_false, h.decodePayload_values]
  exact h.checkPayload_eq

/-- **The length of a payload.** -/
theorem marshal_length : (marshal p).length = 178 + 2 * lineBreaks p.epk +
    (formatInt p.iat).length + (formatInt p.exp).length := by
  obtain ⟨raw, hraw, hlen⟩ := h.epk
  have hepk := quote_length_of_decode hraw
  have hleg : (quote p.leg).length = 3 := by
    rcases h.leg with hleg | hleg <;> rw [hleg] <;> decide
  have hver : (formatInt p.v).length = 1 := by
    rw [h.ver]
    decide
  rw [hlen] at hepk
  simp only [marshal, length_append, validID_quote h.rid, validID_quote h.sid,
    validID_quote h.nonce, hepk, hleg, hver]
  have hopen : (lit "\x7b\"v\":").length = 5 := rfl
  have hnames : ∀ name ∈ [lit ",\"rid\":", lit ",\"sid\":", lit ",\"leg\":", lit ",\"epk\":",
      lit ",\"iat\":", lit ",\"exp\":"], name.length = 7 := by decide
  have hnonce : (lit ",\"nonce\":").length = 9 := rfl
  have hclose : (lit "\x7d").length = 1 := rfl
  simp only [forall_mem_cons] at hnames
  simp only [hopen, hnames, hnonce, hclose, publicKeySize]
  omega

end Payload.WellFormed

end BuddyNet.Ticket
