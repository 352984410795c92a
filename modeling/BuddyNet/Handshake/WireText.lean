import BuddyNet.Handshake.Wire

/-!
# The text of control messages

`json.Marshal` of a registration, and that the server decodes it to the same fields
(`parseRegister_json`).
-/

namespace BuddyNet.Handshake

open Go.Json List

/-! ### Registrations -/

/-- `json.Marshal` of a registration; what belongs to other messages is empty and left out. -/
def Wire.json (w : Wire) : Bytes :=
  object ([(lit "type", quote w.typ), (lit "ver", Go.formatInt w.ver)] ++
    optString (lit "token_enc") w.tokenEnc ++ optString (lit "role") w.role ++
    optString (lit "id") w.id ++ optString (lit "pubkey") w.pubkey ++
    optString (lit "virtual_ip") w.virtualIP ++ optString (lit "name") w.name ++
    (if w.ts = 0 then [] else [(lit "ts", Go.formatInt w.ts)]) ++
    optString (lit "nonce") w.nonce ++ optString (lit "reg_sig") w.regSig ++
    optString (lit "code_enc") w.codeEnc ++ optString (lit "epk") w.ephPub)

/-- The fields of a registration as they are written. -/
def Wire.fields (w : Wire) : Fields :=
  [(lit "type", stringMember w.typ), (lit "ver", intMember w.ver),
    (lit "token_enc", if w.tokenEnc = [] then none else stringMember w.tokenEnc),
    (lit "role", if w.role = [] then none else stringMember w.role),
    (lit "id", if w.id = [] then none else stringMember w.id),
    (lit "pubkey", if w.pubkey = [] then none else stringMember w.pubkey),
    (lit "virtual_ip", if w.virtualIP = [] then none else stringMember w.virtualIP),
    (lit "name", if w.name = [] then none else stringMember w.name),
    (lit "ts", if w.ts = 0 then none else intMember w.ts),
    (lit "nonce", if w.nonce = [] then none else stringMember w.nonce),
    (lit "reg_sig", if w.regSig = [] then none else stringMember w.regSig),
    (lit "code_enc", if w.codeEnc = [] then none else stringMember w.codeEnc),
    (lit "epk", if w.ephPub = [] then none else stringMember w.ephPub)]

theorem Wire.json_eq (w : Wire) : w.json = object w.fields.texts := by
  simp only [Wire.json, Wire.fields, Fields.texts_stringMember, Fields.texts_intMember,
    Fields.texts_optString, Fields.texts_optInt, Fields.texts_nil, cons_append,
    nil_append, append_nil, append_assoc]

/-- The texts of a registration are well-formed UTF-8 and its numbers have 64 bits. -/
structure Wire.Textual (w : Wire) : Prop where
  typ : Go.Utf8 w.typ
  tokenEnc : Go.Utf8 w.tokenEnc
  signed : w.toMessage.Textual
  regSig : Go.Utf8 w.regSig
  ver : -2 ^ 63 ≤ w.ver ∧ w.ver < 2 ^ 63
  ts : -2 ^ 63 ≤ w.ts ∧ w.ts < 2 ^ 63

variable {w : Wire}

/-- **A registration is decoded to the fields it was made of**; the token is not among them. -/
theorem decodeMessage_fields (h : w.Textual) (htoken : w.token = []) :
    decodeMessage w.fields.values = some w := by
  have hsub : w.fields.map (·.1) ⊆ messageFields := by
    show messageFields.take 13 ⊆ messageFields
    exact take_subset _ _
  have hnodup : (w.fields.map (·.1)).Nodup := by
    show (messageFields.take 13).Nodup
    decide
  have hunused : (unusedFields.all fun f =>
      (valuesOf messageFields w.fields.values f.1).all f.2) = true := by
    refine all_eq_true.2 fun f hf => ?_
    have hnot : f.1 ∉ w.fields.map (·.1) := by
      have hall : ∀ f ∈ unusedFields, f.1 ∉ messageFields.take 13 := by decide
      exact hall f hf
    rw [valuesOf_notMem hsub hnot]
    rfl
  have htype : stringField (valuesOf messageFields w.fields.values (lit "type")) = some w.typ := by
    rw [valuesOf_mem hsub hnodup mem_cons_self, stringField_stringMember]
  have hver : intField (valuesOf messageFields w.fields.values (lit "ver")) = some w.ver := by
    rw [valuesOf_mem hsub hnodup (mem_cons_of_mem _ mem_cons_self),
      intField_intMember h.ver.1 h.ver.2]
  have hts : intField (valuesOf messageFields w.fields.values (lit "ts")) = some w.ts := by
    rw [valuesOf_mem hsub hnodup (o := if w.ts = 0 then none else intMember w.ts)
      (by simp [Wire.fields]), intField_omitted h.ts.1 h.ts.2]
  have hopt : ∀ name v, (name, if v = [] then none else stringMember v) ∈ w.fields →
      stringField (valuesOf messageFields w.fields.values name) = some v := by
    intro name v hmem
    rw [valuesOf_mem hsub hnodup hmem, stringField_omitted]
  simp only [decodeMessage, hunused, if_true, htype, hver, hts, Option.bind_eq_bind,
    Option.bind_some,
    hopt (lit "token_enc") w.tokenEnc (by simp [Wire.fields]),
    hopt (lit "role") w.role (by simp [Wire.fields]),
    hopt (lit "id") w.id (by simp [Wire.fields]),
    hopt (lit "pubkey") w.pubkey (by simp [Wire.fields]),
    hopt (lit "virtual_ip") w.virtualIP (by simp [Wire.fields]),
    hopt (lit "name") w.name (by simp [Wire.fields]),
    hopt (lit "nonce") w.nonce (by simp [Wire.fields]),
    hopt (lit "reg_sig") w.regSig (by simp [Wire.fields]),
    hopt (lit "code_enc") w.codeEnc (by simp [Wire.fields]),
    hopt (lit "epk") w.ephPub (by simp [Wire.fields])]
  rw [← htoken]
  rfl

theorem Wire.Textual.reads (h : w.Textual) : Reads w.json (.obj w.fields.values) 1 := by
  rw [w.json_eq]
  refine Fields.reads rfl ?_
  simp only [Wire.fields, forall_mem_cons]
  exact ⟨reads_stringMember h.typ _, reads_intMember _ _,
    reads_omitted _ (reads_stringMember h.tokenEnc _),
    reads_omitted _ (reads_stringMember h.signed.role _),
    reads_omitted _ (reads_stringMember h.signed.id _),
    reads_omitted _ (reads_stringMember h.signed.pubkey _),
    reads_omitted _ (reads_stringMember h.signed.virtualIP _),
    reads_omitted _ (reads_stringMember h.signed.name _),
    reads_omitted _ (reads_intMember _ _),
    reads_omitted _ (reads_stringMember h.signed.nonce _),
    reads_omitted _ (reads_stringMember h.regSig _),
    reads_omitted _ (reads_stringMember h.signed.codeEnc _),
    reads_omitted _ (reads_stringMember h.signed.ephPub _), nofun⟩

/-- **`parseRegister` reads a registration back**, if its fields have the right sizes. -/
theorem parseRegister_json (h : w.Textual) (htoken : w.token = [])
    (hsize : w.wellSized = true) : parseRegister w.json = some w := by
  simp only [parseRegister, h.reads.parse (by decide), structMembers, Option.bind_eq_bind,
    Option.bind_some, decodeMessage_fields h htoken, hsize, if_true]

end BuddyNet.Handshake
