import MailCss.Proofs.Expansion.Masks
import MailCss.Proofs.Stylesheet.Spots

/-!
# A selector affects its own rule only

Two style sheets that differ in the selector of one style rule expand to the same, but for the
selectors of that rule's copies and for what is reported about them. Neither selector need be one
that can be adapted, and the rule may be anywhere, inside client at-rules or not.

Main statement: `expand_isolated`.
-/

namespace MailCss

open Text (Location)
open Node

/-- The selectors of the style rules at a location are left out. -/
def Mask.selectorsAt (l : Location) : Mask := ⟨(· == l), false⟩

/-- Whether a diagnostic points to a location. -/
def Diagnostic.pointsTo (l : Location) (d : Diagnostic) : Bool := d.labels.any (·.location == l)

theorem Finding.pointsTo_diagnostic (l : Location) (f : Finding) :
    f.diagnostic.pointsTo l = (f.location == l) := by
  have hlabels : f.diagnostic.pointsTo l =
      (f.diagnostic.labels.map Label.location).any (· == l) := by
    simp [Diagnostic.pointsTo, List.any_map, Function.comp_def]
  rw [hlabels, map_location_labels, List.any_cons, List.any_nil, Bool.or_false]

/-- The diagnostics that do not point to a location are those of the findings elsewhere. -/
theorem diagnostics_filter_pointsTo (l : Location) (e : Expansion) :
    (e.diagnostics.filter fun d => !d.pointsTo l) = (e.mask (.selectorsAt l)).diagnostics := by
  simp only [Expansion.diagnostics, Expansion.mask, Mask.selectorsAt, List.filter_map,
    Function.comp_def, Finding.pointsTo_diagnostic]

/-- Nodes that look alike under a mask make style sheets that do, at any spot. -/
theorem maskAll_fill_congr {m : Mask} {n k : Node} (h : mask m n = mask m k) (spot : Spot) :
    maskAll m (spot.fill n) = maskAll m (spot.fill k) := by
  induction spot with
  | among before after => simp [Spot.fill, maskAll, h]
  | inRule before selector inner location after ih => simp [Spot.fill, maskAll, mask, ih]
  | inAtRule before name params inner location after ih => simp [Spot.fill, maskAll, mask, ih]

/-- With another selector for one style rule, a style sheet expands to the same nodes but for the
selectors of the style rules at the location of that one, and with the same diagnostics in the same
order but for those that point to its location. -/
theorem Stylesheet.expand_isolated (o : Options) (spot : Spot) (selector selector' : String)
    (nodes : List Node) (l : Location) :
    let e := Stylesheet.expand o ⟨spot.fill (.rule selector nodes l)⟩
    let e' := Stylesheet.expand o ⟨spot.fill (.rule selector' nodes l)⟩
    maskAll (.selectorsAt l) e.nodes = maskAll (.selectorsAt l) e'.nodes ∧
      (e.diagnostics.filter fun d => !d.pointsTo l) =
        (e'.diagnostics.filter fun d => !d.pointsTo l) := by
  intro e e'
  have hrule : mask (.selectorsAt l) (.rule selector nodes l) =
      mask (.selectorsAt l) (.rule selector' nodes l) := by
    simp [mask, Mask.selectorsAt]
  have halike : e.mask (.selectorsAt l) = e'.mask (.selectorsAt l) :=
    expandAll_congr_mask (Options.Alike.refl o) (maskAll_fill_congr hrule spot)
  constructor
  · exact congrArg Expansion.nodes halike
  · rw [diagnostics_filter_pointsTo, diagnostics_filter_pointsTo, halike]

end MailCss
