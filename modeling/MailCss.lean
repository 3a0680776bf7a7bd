import MailCss.Css.Lossless
import MailCss.Proofs.Expansion.Complete
import MailCss.Report
import MailCss.Proofs.Expansion.Multiplicity
import MailCss.Proofs.Css.Nesting
import MailCss.Proofs.Css.Scan
import MailCss.Proofs.Css.Trees
import MailCss.Proofs.Reading.Sources
import MailCss.Proofs.Reading.Preludes
import MailCss.Proofs.Css.Calm
import MailCss.Proofs.Reading.Params
import MailCss.Proofs.Reading.Locations
import MailCss.Proofs.Reading.Chunks
import MailCss.Proofs.Stylesheet.Plain
import MailCss.Proofs.Reading.Heads
import MailCss.Proofs.Reading.RoundTrip
import MailCss.Proofs.Expansion.Masks
import MailCss.Proofs.Expansion.Isolation
import MailCss.Proofs.Expansion.Comments
import MailCss.Proofs.Expansion.Fixpoints
import MailCss.Proofs.Expansion.Landings
import MailCss.Proofs.Expansion.Targeting
import MailCss.Proofs.Css.Halt
import MailCss.Proofs.Css.Outside
import MailCss.Proofs.Reading.Blocks
import MailCss.Proofs.Selector.Order
import MailCss.Proofs.Expansion.Layers
import MailCss.Proofs.Css.Identifiers
import MailCss.Proofs.Css.Spelling
import MailCss.Proofs.Selector.Anchors
import MailCss.Proofs.Selector.Retarget
import MailCss.Proofs.Expansion.Conversion
import MailCss.Proofs.Selector.Wrapped
import MailCss.Proofs.Selector.Independence
import MailCss.Proofs.Css.Meanings
import MailCss.Proofs.Selector.Origins
import MailCss.Proofs.Selector.BodyClass
import MailCss.Proofs.Expansion.Joined
import MailCss.Proofs.Expansion.Reports
import MailCss.Proofs.Selector.Fronts
import MailCss.Proofs.Selector.Keyframes
import MailCss.Proofs.Expansion.Animations
import MailCss.Proofs.Css.Apart
import MailCss.Proofs.Css.Flat
import MailCss.Proofs.Reading.Rejoined
import MailCss.Proofs.Selector.Substitution
import MailCss.Proofs.Selector.Links
import MailCss.Proofs.Text.Places
import MailCss.Proofs.Reading.Placement
import MailCss.Proofs.Reading.Comments
import MailCss.Proofs.Expansion.Inserted
import MailCss.Proofs.Expansion.Channels
import MailCss.Proofs.Css.Levels
import MailCss.Proofs.Reading.Loops
import MailCss.Proofs.Reading.Cursors
import MailCss.Proofs.Reading.Progress
