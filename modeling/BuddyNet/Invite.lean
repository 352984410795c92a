import BuddyNet.Go.Base64Text
import BuddyNet.Go.Trim
import BuddyNet.Keys

/-!
# Invites

`internal/invite/invite.go`: the blob `bnet1.<token>.<key>` a buddy hands to its partner. The
joining side pins the key, so a blob that lost its end must not be read as a bare token or as
another key.
-/

namespace BuddyNet.Invite

open List Go

/-- The text that announces a blob. -/
def blobPrefix : Bytes := lit "bnet1."

/-- The ways a blob can be malformed. -/
inductive BadBlob where
  | shape
  | notBase64
  | keySize (got : ℕ)
  deriving DecidableEq

/-- `Mint`. -/
def mint (token pub : Bytes) : Bytes := blobPrefix ++ token ++ lit "." ++ rawURLEncoding.encode pub

/-- `Parse`: the token and, from a blob, the key to pin. -/
def parse (s : Bytes) : Except BadBlob (Bytes × Option Bytes) :=
  let s := trimSpace s
  if blobPrefix <+: s then
    let rest := s.drop blobPrefix.length
    let tok := rest.takeWhile (· ≠ 46)
    match rest.dropWhile (· ≠ 46) with
    | [] => .error .shape
    | _ :: keyPart =>
      if tok = [] ∨ keyPart = [] then .error .shape
      else match rawURLEncoding.decode keyPart with
        | none => .error .notBase64
        | some raw =>
          if raw.length ≠ publicKeySize then .error (.keySize raw.length) else .ok (tok, some raw)
  -- a bare token from an older inviter
  else .ok (s, none)

variable {s token key : Bytes}

theorem parse_of_noDot {rest : Bytes} (hs : trimSpace s = blobPrefix ++ rest)
    (hdot : 46 ∉ rest) : parse s = .error .shape := by
  have hdrop : rest.dropWhile (· ≠ 46) = [] := by
    refine dropWhile_eq_nil_iff.2 fun c hc => ?_
    simpa using ne_of_mem_of_not_mem hc hdot
  have hrest : (trimSpace s).drop blobPrefix.length = rest := by rw [hs, drop_left]
  simp only [parse, hrest, hdrop]
  exact if_pos ⟨_, hs.symm⟩

theorem parse_of_dot {keyPart : Bytes} (hs : trimSpace s = blobPrefix ++ token ++ 46 :: keyPart)
    (hne : token ≠ []) (hdot : 46 ∉ token) :
    parse s = if keyPart = [] then .error .shape else
      match rawURLEncoding.decode keyPart with
      | none => .error .notBase64
      | some raw =>
        if raw.length ≠ publicKeySize then .error (.keySize raw.length)
        else .ok (token, some raw) := by
  have hall : ∀ c ∈ token, decide (c ≠ 46) = true := fun c hc => by
    simpa using ne_of_mem_of_not_mem hc hdot
  have htake : (token ++ 46 :: keyPart).takeWhile (· ≠ 46) = token := by
    rw [takeWhile_append_of_pos hall, takeWhile_cons_of_neg (by decide), append_nil]
  have hdrop : (token ++ 46 :: keyPart).dropWhile (· ≠ 46) = 46 :: keyPart := by
    rw [dropWhile_append_of_pos hall, dropWhile_cons_of_neg (by decide)]
  have hpre : blobPrefix <+: trimSpace s := ⟨_, by rw [hs, append_assoc]⟩
  have hrest : (trimSpace s).drop blobPrefix.length = token ++ 46 :: keyPart := by
    rw [hs, append_assoc, drop_left]
  simp only [parse, hpre, if_true, hrest, htake, hdrop, hne, false_or]

theorem firm_blobPrefix : Firm blobPrefix :=
  ⟨⟨98, lit "net1.", rfl, by unfold Solid IsASCII; decide⟩,
    ⟨lit "bnet1", 46, rfl, by unfold Solid IsASCII; decide⟩⟩

theorem firm_mint (hkey : key ≠ []) (token : Bytes) : Firm (mint token key) := by
  refine ⟨⟨98, lit "net1." ++ token ++ lit "." ++ rawURLEncoding.encode key, rfl,
    by unfold Solid IsASCII; decide⟩, ?_⟩
  rcases eq_nil_or_concat' (rawURLEncoding.encode key) with hnil | ⟨u, c, hc⟩
  · have hdec := decode_encode_url key
    rw [hnil] at hdec
    exact absurd (Option.some.inj hdec).symm hkey
  · refine ⟨blobPrefix ++ token ++ lit "." ++ u, c, by simp [mint, hc], ?_⟩
    have hmem : c ∈ rawURLEncoding.encode key := by simp [hc]
    rcases Encoding.mem_encode hmem with ⟨v, hv, rfl⟩ | ⟨hpad, -⟩
    · have hall : ∀ w : Fin 64, Solid (rawURLEncoding.char w) := by
        unfold Solid IsASCII
        decide
      exact hall ⟨v, hv⟩
    · cases hpad

/-- **A damaged invite never degrades to an unpinned one.** -/
theorem invite_pinned (token key : Bytes) (htoken : token ≠ []) (hdot : 46 ∉ token)
    (hkey : key.length = publicKeySize) :
    (∀ pre post, Blank pre → Blank post →
      parse (pre ++ mint token key ++ post) = .ok (token, some key)) ∧
    ∀ part, part <+: mint token key → part ≠ mint token key → blobPrefix <:+: part →
      ∃ e, parse part = .error e := by
  have hmint : mint token key = blobPrefix ++ token ++ 46 :: rawURLEncoding.encode key := by
    rw [mint, append_assoc _ (lit ".")]
    rfl
  have hlen : (rawURLEncoding.encode key).length = 43 := by
    rw [Encoding.encode_length_raw rfl, hkey]
    rfl
  constructor
  · intro pre post hpre hpost
    have hne : key ≠ [] := by
      rintro rfl
      cases hkey
    have htrim := (firm_mint hne token).trimSpace_pad hpre hpost
    rw [parse_of_dot (htrim.trans hmint) htoken hdot, if_neg (by rintro hnil; simp [hnil] at hlen),
      decode_encode_url]
    simp [hkey]
  · intro part hpart hproper hannounced
    obtain ⟨body, rfl⟩ : blobPrefix <+: part := by
      refine prefix_of_prefix_length_le ?_ hpart hannounced.length_le
      rw [hmint, append_assoc]
      exact prefix_append _ _
    -- trimming only shortens what is left of the blob
    obtain ⟨rest, hrest, htrim⟩ := firm_blobPrefix.trimSpace_append body
    rw [hmint, append_assoc, prefix_append_right_inj] at hpart
    rw [hmint, append_assoc, ne_eq, append_cancel_left_eq] at hproper
    have hshort : rest <+: token ++ 46 :: rawURLEncoding.encode key := hrest.trans hpart
    have hless : rest.length < (token ++ 46 :: rawURLEncoding.encode key).length := by
      refine hrest.length_le.trans_lt (lt_of_le_of_ne hpart.length_le ?_)
      exact fun heq => hproper (hpart.eq_of_length heq)
    by_cases hmem : 46 ∈ rest
    · obtain ⟨keyPart, rfl⟩ : ∃ keyPart, rest = token ++ 46 :: keyPart := by
        rcases prefix_or_prefix_of_prefix hshort (prefix_append token _) with
          hin | ⟨tail, rfl⟩
        · exact absurd (hin.mem hmem) hdot
        · rcases prefix_cons_iff.1 ((prefix_append_right_inj _).1 hshort) with
            rfl | ⟨keyPart, rfl, -⟩
          · exact absurd (by simpa using hmem) hdot
          · exact ⟨keyPart, rfl⟩
      rw [parse_of_dot (htrim.trans (append_assoc ..).symm) htoken hdot]
      split_ifs with hnil
      · exact ⟨_, rfl⟩
      · cases hdec : rawURLEncoding.decode keyPart with
        | none => exact ⟨_, rfl⟩
        | some raw =>
          -- at most 42 characters are left of the 43
          have hraw := decode_length hdec
          have hsize : raw.length ≠ publicKeySize := by
            intro hsize
            simp only [length_append, length_cons, hlen] at hless
            rw [hsize] at hraw
            unfold publicKeySize at hraw
            omega
          exact ⟨_, if_pos hsize⟩
    · exact ⟨_, parse_of_noDot htrim hmem⟩

/-- A padded invite and one that lost its last character. -/
theorem invite_pinned_sample :
    let key := replicate publicKeySize 7
    parse (lit " " ++ mint (lit "abc") key ++ lit "\n") = .ok (lit "abc", some key) ∧
      ∃ e, parse (mint (lit "abc") key).dropLast = .error e := by
  have hinvite := invite_pinned (lit "abc") (replicate publicKeySize 7) (by decide) (by decide)
    length_replicate
  refine ⟨hinvite.1 _ _ ?_ ?_, hinvite.2 _ ( dropLast_prefix _) (by decide) ?_⟩
  · unfold Blank
    decide
  · unfold Blank
    decide
  · exact ⟨[], (mint (lit "abc") (replicate publicKeySize 7)).dropLast.drop 6, by decide⟩

end BuddyNet.Invite
