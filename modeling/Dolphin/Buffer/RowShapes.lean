import Dolphin.Buffer.MailBox

/-!
# The sizes of the rows

A memory row has the configured sizes before and after every update whose memories have
`dim_out` entries and whose mails have `mail_dim`. A row that is packed for the file is cut
again at those sizes.
-/

namespace Dolphin.Buffer

open Dolphin.Memory Dolphin.Semantics Dolphin.Tensor

variable {α : Type} {param : MemoryParam}

/-- What a call writes has the configured sizes. -/
def Update.Shaped (param : MemoryParam) : Update α → Prop
  | .memory _ rows _ => ∀ row ∈ rows, row.length = param.dimOut
  | .mailbox _ mails _ _ => ∀ mail ∈ mails, mail.length = param.mailDim

/-- A call keeps the sizes. -/
theorem Update.Shaped.editAll {call : Update α} (written : call.Shaped param)
    {table : Nat → NodeMem α} (shaped : ∀ v, (table v).Shaped param) (v : Nat) :
    (editAll table call.edits v).Shaped param := by
  refine editAll_keeps (fun edit member row sized => ?_) shaped v
  cases call with
  | memory nid memory ts =>
      obtain ⟨⟨value, time⟩, pair, own⟩ := List.mem_map.mp (List.of_mem_zip member).2
      rw [← own]
      exact { sized with memory := written value (List.of_mem_zip pair).1 }
  | mailbox nid mail mailTs nPtr =>
      obtain ⟨⟨value, time, slot⟩, triple, own⟩ := List.mem_map.mp (List.of_mem_zip member).2
      rw [← own]
      refine ⟨sized.memory, ?_, fun other held => ?_, ?_⟩
      · rw [List.length_set, sized.mailbox]
      · rcases List.mem_or_eq_of_mem_set held with before | rfl
        · exact sized.mails other before
        · exact written _ (List.of_mem_zip triple).1
      · rw [List.length_set, sized.mailboxTs]

/-- Calls keep the sizes. -/
theorem tableUpdates_shaped {calls : List (Update α)} (written : ∀ call ∈ calls, call.Shaped param)
    {table : Nat → NodeMem α} (shaped : ∀ v, (table v).Shaped param) (v : Nat) :
    (tableUpdates table calls v).Shaped param := by
  induction calls generalizing table with
  | nil => exact shaped v
  | cons call calls ih =>
      obtain ⟨first, later⟩ := List.forall_mem_cons.mp written
      exact ih later (first.editAll shaped)

/-! ## Mails -/

/-- An entry of two lists put together row by row. -/
theorem mem_zipWith_append {first second : List (List α)} {row : List α}
    (member : row ∈ List.zipWith (· ++ ·) first second) :
    ∃ x ∈ first, ∃ y ∈ second, row = x ++ y := by
  rw [← List.map_uncurry_zip_eq_zipWith] at member
  obtain ⟨⟨x, y⟩, pair, rfl⟩ := List.mem_map.mp member
  exact ⟨x, (List.of_mem_zip pair).1, y, (List.of_mem_zip pair).2, rfl⟩

/-- A mail has both memories, and the features of the edge if there are any. -/
theorem mailRows_width {own other edgeFeats : List (List α)}
    (owns : ∀ row ∈ own, row.length = param.dimOut)
    (others : ∀ row ∈ other, row.length = param.dimOut)
    (feats : 0 < param.dimEdgeFeat → ∀ row ∈ edgeFeats, row.length = param.dimEdgeFeat) :
    ∀ mail ∈ mailRows param own other edgeFeats, mail.length = param.mailDim := by
  intro mail member
  have both {row : List α} (inBoth : row ∈ List.zipWith (· ++ ·) own other) :
      row.length = 2 * param.dimOut := by
    obtain ⟨x, inOwn, y, inOther, rfl⟩ := mem_zipWith_append inBoth
    rw [List.length_append, owns x inOwn, others y inOther, Nat.two_mul]
  rw [mailRows] at member
  rw [MemoryParam.mailDim]
  split at member
  case isTrue featured =>
    obtain ⟨x, inBoth, y, inFeats, rfl⟩ := mem_zipWith_append member
    rw [List.length_append, both inBoth, feats featured y inFeats]
  case isFalse plain =>
    rw [both member, Nat.eq_zero_of_not_pos plain, Nat.add_zero]

/-- There is a mail for each edge. -/
theorem mailRows_count {own other edgeFeats : List (List α)} {count : Nat}
    (owns : own.length = count) (others : other.length = count)
    (feats : edgeFeats.length = count) :
    (mailRows param own other edgeFeats).length = count := by
  rw [mailRows]
  split
  · simp [owns, others, feats]
  · simp [owns, others]

end Dolphin.Buffer
