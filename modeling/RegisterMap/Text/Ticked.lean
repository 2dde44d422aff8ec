/-
Names as they are shown in messages.
-/
namespace RegisterMap.Text

/-- A name between grave accents. -/
def ticked (name : String) : String := "`" ++ name ++ "`"

end RegisterMap.Text
