/-
The source file of a peripheral: a fixed heading and the namespace with
the class in it, without blanks at the ends of lines.
-/
import RegisterMap.Code.Render
import RegisterMap.Peripheral.Assemble
import RegisterMap.Register.Merge
import RegisterMap.Register.Scan

namespace RegisterMap.Peripheral

open Code

/-- What stands above the namespace. -/
def heading : String :=
  "// Generated by registers-generator-renode\n\n" ++
    "using Antmicro.Renode.Core;\n" ++
    "using Antmicro.Renode.Peripherals.Bus;\n\n"

/-- Every line of a text without the blanks at its end. -/
def tidy (text : String) : String :=
  String.join <| (Text.lines text.toList).map fun line =>
    String.ofList (Text.trimEnd line ++ ['\n'])

/-- The source file of the peripheral of an inventory. -/
def source (inventory : Inventory) (c : Config) : Reporting String := do
  let (assembly, tree) ← (assemble inventory c).fresh
  let body ← Reporting.quiet (tree.emit assembly.home {})
  Reporting.note .info
    s!"Generated peripheral {Text.ticked (c.className inventory.name)} ({tree.size} nodes)"
  return heading ++ tidy body

end RegisterMap.Peripheral

namespace RegisterMap.Description.Design

/-- The inventory of a description, with one register for every address. -/
def inventory (d : Design) : Reporting Inventory := do
  (← Inventory.scan d).merge

/-- The source file of the peripheral that a description describes. -/
def source (d : Design) (c : Peripheral.Config) : Reporting String := do
  Peripheral.source (← d.inventory) c

end RegisterMap.Description.Design
