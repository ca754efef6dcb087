import VariableImport.DispatchTable.Basic
import VariableImport.Json.Printer

/-!
# DispatchTable/Script — a table as the source of a function

A table as the source of a function that takes a specifier and imports its file, one line for every
entry.  The functions of one file stand in a block between two comments.
-/

namespace VariableImport.DispatchTable

/-- The tag of messages and comments. -/
def tag : Text := "[dynimport-vars]".toList

/-- The name of the function of the `index`-th call site of a file. -/
def functionName (index : Int) : Text :=
  "__variableDynamicImportRuntime".toList ++ Text.ofInt index ++ "__".toList

/-- The line of one entry. -/
def entryLine (entry : Text × Text) : Text :=
  "    ".toList ++ Json.encodeText entry.1 ++ ": function () \x7b return import(".toList ++
    Json.encodeText entry.2 ++ "); \x7d,".toList

/-- The source of a function with a given name and given lines for its entries. -/
def functionText (name lines : Text) : Text :=
  "function ".toList ++ name ++ "(path) \x7b\n  var modules = \x7b\n".toList ++ lines ++
    "\n  \x7d;\n".toList ++
    "  if (Object.prototype.hasOwnProperty.call(modules, path)) \x7b\n".toList ++
    "    return modules[path]();\n  \x7d\n".toList ++
    "  return new Promise(function (resolve, reject) \x7b\n".toList ++
    "    (typeof queueMicrotask === 'function' ? queueMicrotask : setTimeout)(\n".toList ++
    "      reject.bind(null, new Error(\"Unknown variable dynamic import: \" + path))\n".toList ++
    "    );\n  \x7d);\n\x7d".toList

/-- The text that stands for the lines of the entries until they are filled in. -/
def linesMark : Text := "__MODULES__".toList

/-- **The source of the function for some entries.**  The name is put in first, so the entries are
also filled in where the name holds their mark. -/
def renderFunction (name : Text) (entries : List (Text × Text)) : Text :=
  let lines := Text.join ['\n'] (entries.map entryLine)
  functionText (Text.replace name linesMark lines) lines

/-- The source of the function of a table. -/
def render (table : DispatchTable) (name : Text) : Text := renderFunction name table.entries

/-- The comment before the functions of a file. -/
def startMarker : Text := "// ".toList ++ tag ++ " runtime -S-".toList

/-- The comment after the functions of a file. -/
def endMarker : Text := "// ".toList ++ tag ++ " runtime -E-".toList

/-- **The block of the functions of one file**, empty if there are none. -/
def renderBlock (functions : List Text) : Text :=
  if functions = [] then [] else Text.join ['\n'] (startMarker :: functions ++ [endMarker])

end VariableImport.DispatchTable
