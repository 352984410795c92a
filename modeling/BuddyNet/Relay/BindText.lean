import BuddyNet.Go.Base64Text
import BuddyNet.Relay.Offer

/-!
# The text of a bind

A bind is read back from the datagram that `MarshalBind` makes of it (`parseBind_marshalBind`), if
its fields are well-formed text within the bounds of `ParseBind`. A bind made from credentials has
base64url in every field, so its size is a matter of arithmetic (`marshalBind_length_le`).
-/

namespace BuddyNet.Relay

open Go Go.Json List

/-- The fields of a bind as they are written. -/
def Bind.fields (b : Bind) : Fields :=
  [(lit "s", stringMember b.sessionToken),
    (lit "c", if b.cookie = [] then none else stringMember b.cookie),
    (lit "t", if b.ticket = [] then none else stringMember b.ticket),
    (lit "ts", if b.ticketSig = [] then none else stringMember b.ticketSig),
    (lit "b", if b.bindSig = [] then none else stringMember b.bindSig)]

theorem optionalMember_eq {name : Bytes} (hname : quote name = 34 :: (name ++ [34])) (v : Bytes) :
    optionalMember name v =
      moreText (Fields.texts [(name, if v = [] then none else stringMember v)]) := by
  unfold optionalMember
  split_ifs with hv
  · rfl
  · simp only [moreText, Fields.texts, stringMember, filterMap_cons, Option.map_some,
      filterMap_nil, flatMap_cons, flatMap_nil, hname, append_assoc,
      append_nil, cons_append]
    rfl

theorem marshalBind_eq (b : Bind) : marshalBind b = bindPrefix ++ object b.fields.texts := by
  have htexts : b.fields.texts = (lit "s", quote b.sessionToken) ::
      (Fields.texts [(lit "c", if b.cookie = [] then none else stringMember b.cookie)] ++
        Fields.texts [(lit "t", if b.ticket = [] then none else stringMember b.ticket)] ++
        Fields.texts [(lit "ts", if b.ticketSig = [] then none else stringMember b.ticketSig)] ++
        Fields.texts [(lit "b", if b.bindSig = [] then none else stringMember b.bindSig)]) := by
    simp only [Fields.texts, ← filterMap_append]
    rfl
  have hmore : ∀ ms ms' : List (Bytes × Bytes), moreText (ms ++ ms') =
      moreText ms ++ moreText ms' :=
    fun ms ms' => flatMap_append
  rw [htexts, object_cons, hmore, hmore, hmore, ← optionalMember_eq (by decide),
    ← optionalMember_eq (by decide), ← optionalMember_eq (by decide),
    ← optionalMember_eq (by decide)]
  simp only [marshalBind, append_assoc]
  rfl

/-- Every field is well-formed UTF-8. -/
structure Bind.Textual (b : Bind) : Prop where
  sessionToken : Utf8 b.sessionToken
  cookie : Utf8 b.cookie
  ticket : Utf8 b.ticket
  ticketSig : Utf8 b.ticketSig
  bindSig : Utf8 b.bindSig

variable {b : Bind}

theorem unmarshalBind_fields (h : b.Textual) : unmarshalBind (object b.fields.texts) = some b := by
  have hread : Reads (object b.fields.texts) (.obj b.fields.values) 1 := by
    refine Fields.reads rfl ?_
    simp only [Bind.fields, forall_mem_cons]
    exact ⟨reads_stringMember h.sessionToken _, reads_omitted _ (reads_stringMember h.cookie _),
      reads_omitted _ (reads_stringMember h.ticket _),
      reads_omitted _ (reads_stringMember h.ticketSig _),
      reads_omitted _ (reads_stringMember h.bindSig _), nofun⟩
  have hsub : b.fields.map (·.1) ⊆ bindFields := Subset.refl _
  have hnodup : (b.fields.map (·.1)).Nodup := by
    show bindFields.Nodup
    decide
  have hopt : ∀ name v, (name, if v = [] then none else stringMember v) ∈ b.fields →
      stringField (valuesOf bindFields b.fields.values name) = some v := by
    intro name v hmem
    rw [valuesOf_mem hsub hnodup hmem, stringField_omitted]
  have htok : stringField (valuesOf bindFields b.fields.values (lit "s")) =
      some b.sessionToken := by
    rw [valuesOf_mem hsub hnodup (mem_cons_self), stringField_stringMember]
  simp only [unmarshalBind, hread.parse (by decide), structMembers, Option.bind_eq_bind,
    Option.bind_some, htok,
    hopt (lit "c") b.cookie (by simp [Bind.fields]),
    hopt (lit "t") b.ticket (by simp [Bind.fields]),
    hopt (lit "ts") b.ticketSig (by simp [Bind.fields]),
    hopt (lit "b") b.bindSig (by simp [Bind.fields])]
  rfl

/-- **A bind is read back from its datagram.** -/
theorem parseBind_marshalBind (htext : b.Textual) (hform : b.wellFormed = true)
    (hlen : (marshalBind b).length ≤ maxBindLen) : parseBind (marshalBind b) = some b := by
  have hshort : ¬ (marshalBind b).length < bindPrefix.length := by
    rw [marshalBind_eq, length_append]
    omega
  have htake : (marshalBind b).take bindPrefix.length = bindPrefix := by
    rw [marshalBind_eq, take_left]
  have hdrop : (marshalBind b).drop bindPrefix.length = object b.fields.texts := by
    rw [marshalBind_eq, drop_left]
  rw [parseBind, if_neg (by simp [hshort, not_lt.2 hlen, htake]), hdrop, unmarshalBind_fields htext]
  simp [hform]

/-! ### Sizes -/

theorem optionalMember_length_le (name : Bytes) {v : Bytes} (hv : ∀ c ∈ v, Plain c) :
    (optionalMember name v).length ≤ name.length + v.length + 6 := by
  have hopen : (lit ",\"").length = 2 := rfl
  have hclose : (lit "\":").length = 2 := rfl
  unfold optionalMember
  split_ifs
  · exact Nat.zero_le _
  · simp only [length_append, hopen, hclose, quote_plain hv, length_singleton]
    omega

/-- The size of a bind whose fields are written as they are. -/
theorem marshalBind_length_le (htok : ∀ c ∈ b.sessionToken, Plain c)
    (hcookie : ∀ c ∈ b.cookie, Plain c) (hticket : ∀ c ∈ b.ticket, Plain c)
    (hsig : ∀ c ∈ b.ticketSig, Plain c) (hbind : ∀ c ∈ b.bindSig, Plain c) :
    (marshalBind b).length ≤ b.sessionToken.length + b.cookie.length + b.ticket.length +
      b.ticketSig.length + b.bindSig.length + 45 := by
  have hprefix : bindPrefix.length = 8 := rfl
  have hopen : (lit "\x7b\"s\":").length = 5 := rfl
  have hclose : (lit "\x7d").length = 1 := rfl
  have hc := optionalMember_length_le (lit "c") hcookie
  have ht := optionalMember_length_le (lit "t") hticket
  have hts := optionalMember_length_le (lit "ts") hsig
  have hb := optionalMember_length_le (lit "b") hbind
  have hnames : (lit "c").length = 1 ∧ (lit "t").length = 1 ∧ (lit "ts").length = 2 ∧
      (lit "b").length = 1 := ⟨rfl, rfl, rfl, rfl⟩
  simp only [marshalBind, length_append, hprefix, hopen, hclose, quote_plain htok,
    length_singleton]
  omega

end BuddyNet.Relay
