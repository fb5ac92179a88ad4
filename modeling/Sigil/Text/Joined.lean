/-!
# Joined texts

A list of texts written one after the other with a separator between neighbours.

## Main results

* `Text.toList_joined`: the characters of a joined text.
-/

namespace Sigil.Text

/-- The texts of a list with `sep` between neighbours. -/
def joined (sep : String) : List String → String
  | [] => ""
  | [s] => s
  | s :: t :: ts => s ++ sep ++ joined sep (t :: ts)

/-- The separator stands in front of every text but the first. -/
theorem toList_joined (sep s : String) (ss : List String) :
    (joined sep (s :: ss)).toList = s.toList ++ ss.flatMap fun r => sep.toList ++ r.toList := by
  induction ss generalizing s with
  | nil => simp [joined]
  | cons r ss ih =>
      rw [joined, String.toList_append, String.toList_append, ih, List.flatMap_cons,
        List.append_assoc, List.append_assoc]

end Sigil.Text
