import MailCss.Proofs.Expansion.Comments
import MailCss.Proofs.Expansion.Complete
import MailCss.Proofs.Expansion.Targeting
import MailCss.Proofs.Reading.Comments

/-!
# Inserted comments that are read again

The comment in front of a client's copy is made of the client's name as it stands in the parameters
of the at-rule, and nothing in it is escaped. Names of known clients can be written in a comment.
Another name can have a closing delimiter in it, plainly or in a string or a bracketed group, and
then the comment ends there and the rest of the name becomes CSS.

Main statements: `ClientComment.readsBack_iff`, and `Stylesheet.expand_comments_readBack` for all
comments of an expansion.
-/

namespace MailCss

open Text (Mark)
open Css (TokenTree)
open Node

variable {o : Options} {text : String}

/-! ## Names in comments -/

/-- The name of a client has no closing delimiter. -/
theorem noClose_of_ofName? {name : String} (h : (Client.ofName? name).isSome = true) :
    ¬ ['*', '/'] <:+: name.toList := by
  obtain ⟨c, hc⟩ := Option.isSome_iff_exists.1 h
  rw [← Client.name_of_ofName? hc]
  cases c <;> decide

namespace ClientComment

variable {r : AtRule} {name : String}

theorem toList_eq (h : ClientComment o r name text) :
    text.toList = name.toList ++
      if (Client.ofName? name).isSome then [] else ": unsupported".toList := by
  have htext := Node.comment.inj h.text
  rw [← htext]
  split <;> simp

/-- What is put behind a name neither makes nor breaks a closing delimiter. -/
theorem closer_iff (h : ClientComment o r name text) :
    ['*', '/'] <:+: text.toList ↔ ['*', '/'] <:+: name.toList := by
  rw [h.toList_eq]
  constructor
  · intro hclose
    by_contra hnone
    revert hclose
    split
    · simpa using hnone
    · exact not_isInfix_append hnone (by decide) (by decide) (by decide)
  · intro hclose
    exact hclose.trans (List.prefix_append _ _).isInfix

theorem trimmed (h : ClientComment o r name text) : Text.trim text.toList = text.toList := by
  obtain ⟨htrim, hempty, -⟩ := mem_splitClients h.listed
  have hne : name.toList ≠ [] := by simpa using hempty
  rw [h.toList_eq]
  split
  · simpa using htrim
  · obtain ⟨hhead, -⟩ := Text.trim_eq_self_iff.1 htrim
    refine Text.trim_eq_self ?_ ?_
    · intro c hc
      rw [List.head?_append_of_ne_nil _ hne] at hc
      exact hhead c hc
    · intro c hc
      rw [List.getLast?_append_of_ne_nil _ (by decide)] at hc
      obtain rfl : 'd' = c := Option.some.inj hc
      rfl

/-- An inserted comment is read back exactly if the name has no closing delimiter. -/
theorem readsBack_iff (h : ClientComment o r name text) :
    ReadsBack text ↔ ¬ ['*', '/'] <:+: name.toList := by
  rw [MailCss.readsBack_iff, ← h.closer_iff]
  exact ⟨PlainComment.noClose, fun hclose => ⟨h.trimmed, hclose⟩⟩

/-- In front of a closing delimiter in the name, the comment ends; behind it, the rest of the name
is read, and the suffix for an unknown client. -/
theorem reread_of_closer (h : ClientComment o r name text) {a b : List Char}
    (hname : name.toList = a ++ '*' :: '/' :: b) (ha : ¬ ['*', '/'] <:+: a) :
    rereadComment text = .node (.comment (String.ofList (Text.trim a))) ++
      readTrees (Mark.start.advance ('/' :: '*' :: ' ' :: (a ++ ['*', '/']))) .nothing
        (TokenTree.ofText (b ++ ": unsupported */\n".toList)) := by
  have hunknown : ¬ (Client.ofName? name).isSome = true := by
    intro hknown
    refine noClose_of_ofName? hknown ⟨a, b, ?_⟩
    rw [hname, List.append_assoc]
    rfl
  have htext : text.toList = a ++ '*' :: '/' :: (b ++ ": unsupported".toList) := by
    rw [h.toList_eq, if_neg hunknown, hname, List.append_assoc]
    rfl
  have hread := rereadComment_of_closer htext ha
  rw [List.append_assoc] at hread
  exact hread

end ClientComment

/-- What becomes of the comment `text` for a client listed as `name`, written alone and read. -/
structure RereadAs (name text : String) : Prop where
  closer : ['*', '/'] <:+: text.toList ↔ ['*', '/'] <:+: name.toList
  readsBack : ReadsBack text ↔ ¬ ['*', '/'] <:+: name.toList
  known : (Client.ofName? name).isSome = true → ReadsBack text
  escapes : ∀ a b, name.toList = a ++ '*' :: '/' :: b → ¬ ['*', '/'] <:+: a →
    rereadComment text = .node (.comment (String.ofList (Text.trim a))) ++
      readTrees (Mark.start.advance ('/' :: '*' :: ' ' :: (a ++ ['*', '/']))) .nothing
        (TokenTree.ofText (b ++ ": unsupported */\n".toList))

theorem ClientComment.rereadAs {r : AtRule} {name : String} (h : ClientComment o r name text) :
    RereadAs name text where
  closer := h.closer_iff
  readsBack := h.readsBack_iff
  known hknown := h.readsBack_iff.2 (noClose_of_ofName? hknown)
  escapes _ _ hname ha := h.reread_of_closer hname ha

theorem mem_comments {ns : List Node} : text ∈ comments ns ↔ .comment text ∈ withinAll ns := by
  rw [comments, List.mem_filterMap]
  constructor
  · rintro ⟨core, hcore, htext⟩
    obtain ⟨n, hn, rfl⟩ := mem_cores.1 hcore
    cases n <;> cases htext
    exact hn
  · intro h
    exact ⟨_, mem_cores.2 ⟨_, h, rfl⟩, rfl⟩

/-- Every comment of an expanded text is a comment of the text, and is then read back if it is
written alone, or is inserted for a client that an at-rule of the text lists. An inserted comment is
read back exactly if the name of the client, as it stands in the parameters, has no closing
delimiter, as those of all known clients have none; otherwise it ends there, and the rest of the
name is read as CSS. -/
theorem Stylesheet.expand_comments_readBack (o : Options) (css text : String)
    (h : text ∈ comments ((parse css).expand o).nodes) :
    (text ∈ comments (parse css).nodes ∧ ReadsBack text) ∨
      ∃ r ∈ atRulesAll (parse css).nodes, ∃ name,
        ClientComment o r name text ∧ RereadAs name text := by
  rcases comments_expandAll_inserts _ h with h | ⟨r, hr, name, hname⟩
  · exact .inl ⟨h, readsBack_iff.2 (plainComment_of_mem_parse (mem_comments.1 h))⟩
  · exact .inr ⟨r, hr, name, hname, hname.rereadAs⟩

/-- A string that is listed for a client closes the comment in front of its copy, and writes a
rule. -/
theorem Stylesheet.expand_comments_readBack_string :
    let o := Options.withComment {} true
    let text := "\"*/a\x7b\x7d/*\": unsupported"
    (∃ r name, ClientComment o r name text ∧ RereadAs name text) ∧ ¬ ReadsBack text ∧
      (rereadComment text).nodes =
        [.comment "\"", .rule "a" [] ⟨1, 6⟩, .comment "\": unsupported"] := by
  intro o text
  have hread := Stylesheet.expand_comments_readBack o "@client \"*/a\x7b\x7d/*\";" text
    (by decide +kernel)
  have hsource : comments (parse "@client \"*/a\x7b\x7d/*\";").nodes = [] := by decide +kernel
  refine ⟨?_, ?_, by cbv⟩
  · rcases hread with ⟨h, -⟩ | ⟨r, -, name, hname⟩
    · rw [hsource] at h
      cases h
    · exact ⟨r, name, hname⟩
  · rw [readsBack_iff]
    decide

end MailCss
