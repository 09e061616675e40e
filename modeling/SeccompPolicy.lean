import SeccompPolicy.Acceptance
import SeccompPolicy.ArgumentBounds
import SeccompPolicy.Arithmetic
import SeccompPolicy.Comparisons
import SeccompPolicy.FrontEnd
import SeccompPolicy.Grammar
import SeccompPolicy.LabelOffsets
import SeccompPolicy.LiftText
import SeccompPolicy.Merging
import SeccompPolicy.Numerals
import SeccompPolicy.ParserConflicts
import SeccompPolicy.PolicyVerdict
import SeccompPolicy.Prologue
import SeccompPolicy.ScratchRuns
import SeccompPolicy.TracerCopy
import SeccompPolicy.TracerLoop
