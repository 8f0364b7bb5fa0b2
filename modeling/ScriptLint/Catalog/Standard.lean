import ScriptLint.Catalog.Document

/-!
The standard catalog, which a run uses when it is given no other.
-/

namespace ScriptLint.Standard

def declaredIn (set : String) (position : Option Nat) : Declaration :=
  { set := some set, position := position }

def mandatoryIn (set : String) (position : Option Nat) : Declaration :=
  { set := some set, mandatory := true, position := position }

def parameter (name : String) (declarations : List Declaration) : ParameterEntry :=
  { name := name, declarations := declarations }

/-- A parameter that is declared once for each of the given sets, mandatory in none of them. -/
def optionalIn (name : String) (sets : List String) : ParameterEntry :=
  parameter name (sets.map (declaredIn · none))

/-- A switch that is declared once for each of the given sets. -/
def switchIn (name : String) (sets : List String) : ParameterEntry :=
  { optionalIn name sets with isSwitch := true }

def copyItem : CommandEntry where
  name := "Copy-Item"
  kind := .cmdlet
  parameterSets := ["Path", "LiteralPath"]
  parameters := [
    parameter "Path" [mandatoryIn "Path" (some 0)],
    parameter "LiteralPath" [mandatoryIn "LiteralPath" none],
    parameter "Destination" [declaredIn "Path" (some 1), declaredIn "LiteralPath" (some 1)],
    switchIn "Recurse" ["Path", "LiteralPath"],
    switchIn "Force" ["Path", "LiteralPath"],
    switchIn "PassThru" ["Path", "LiteralPath"]]

def moveItem : CommandEntry where
  name := "Move-Item"
  kind := .cmdlet
  parameterSets := ["Path", "LiteralPath"]
  parameters := [
    parameter "Path" [mandatoryIn "Path" (some 0)],
    parameter "LiteralPath" [mandatoryIn "LiteralPath" none],
    parameter "Destination" [declaredIn "Path" (some 1), declaredIn "LiteralPath" (some 1)],
    switchIn "Force" ["Path", "LiteralPath"]]

def renameItem : CommandEntry where
  name := "Rename-Item"
  kind := .cmdlet
  parameterSets := ["ByPath", "ByLiteralPath"]
  parameters := [
    parameter "Path" [mandatoryIn "ByPath" (some 0)],
    parameter "LiteralPath" [mandatoryIn "ByLiteralPath" none],
    parameter "NewName" [mandatoryIn "ByPath" (some 1), mandatoryIn "ByLiteralPath" (some 1)],
    switchIn "Force" ["ByPath", "ByLiteralPath"]]

def removeItem : CommandEntry where
  name := "Remove-Item"
  kind := .cmdlet
  parameterSets := ["Path", "LiteralPath"]
  parameters := [
    parameter "Path" [mandatoryIn "Path" (some 0)],
    parameter "LiteralPath" [mandatoryIn "LiteralPath" none],
    switchIn "Recurse" ["Path", "LiteralPath"],
    switchIn "Force" ["Path", "LiteralPath"]]

def newItem : CommandEntry where
  name := "New-Item"
  kind := .cmdlet
  parameterSets := ["pathSet", "nameSet"]
  parameters := [
    parameter "Path" [mandatoryIn "pathSet" (some 0), declaredIn "nameSet" (some 0)],
    parameter "Name" [mandatoryIn "nameSet" none],
    optionalIn "ItemType" ["pathSet", "nameSet"],
    optionalIn "Value" ["pathSet", "nameSet"],
    switchIn "Force" ["pathSet", "nameSet"]]

def getChildItem : CommandEntry where
  name := "Get-ChildItem"
  kind := .cmdlet
  parameterSets := ["Items", "LiteralItems"]
  parameters := [
    parameter "Path" [declaredIn "Items" (some 0)],
    parameter "LiteralPath" [mandatoryIn "LiteralItems" none],
    parameter "Filter" [declaredIn "Items" (some 1), declaredIn "LiteralItems" (some 1)],
    switchIn "Recurse" ["Items", "LiteralItems"],
    switchIn "File" ["Items", "LiteralItems"]]

def getContent : CommandEntry where
  name := "Get-Content"
  kind := .cmdlet
  parameterSets := ["Path", "LiteralPath"]
  parameters := [
    parameter "Path" [mandatoryIn "Path" (some 0)],
    parameter "LiteralPath" [mandatoryIn "LiteralPath" none],
    optionalIn "Tail" ["Path", "LiteralPath"],
    switchIn "Raw" ["Path", "LiteralPath"]]

def setContent : CommandEntry where
  name := "Set-Content"
  kind := .cmdlet
  parameterSets := ["Path", "LiteralPath"]
  parameters := [
    parameter "Path" [mandatoryIn "Path" (some 0)],
    parameter "LiteralPath" [mandatoryIn "LiteralPath" none],
    parameter "Value" [declaredIn "Path" (some 1), declaredIn "LiteralPath" (some 1)],
    optionalIn "Encoding" ["Path", "LiteralPath"]]

def selectString : CommandEntry where
  name := "Select-String"
  kind := .cmdlet
  parameterSets := ["File", "Object", "LiteralFile"]
  parameters := [
    parameter "Pattern" [mandatoryIn "File" (some 0), mandatoryIn "Object" (some 0),
      mandatoryIn "LiteralFile" (some 0)],
    parameter "Path" [mandatoryIn "File" (some 1)],
    parameter "LiteralPath" [mandatoryIn "LiteralFile" none],
    parameter "InputObject" [mandatoryIn "Object" none],
    switchIn "SimpleMatch" ["File", "Object", "LiteralFile"],
    switchIn "CaseSensitive" ["File", "Object", "LiteralFile"]]

def invokeWebRequest : CommandEntry where
  name := "Invoke-WebRequest"
  kind := .cmdlet
  parameters := [
    parameter "Uri" [{ mandatory := true, position := some 0 }],
    parameter "Method" [{}],
    parameter "OutFile" [{}],
    { name := "UseBasicParsing", isSwitch := true, declarations := [{}] }]

def convertToJson : CommandEntry where
  name := "ConvertTo-Json"
  kind := .cmdlet
  parameters := [
    parameter "InputObject" [{ mandatory := true, position := some 0 }],
    parameter "Depth" [{}],
    { name := "Compress", isSwitch := true, declarations := [{}] }]

def testConnection : CommandEntry where
  name := "Test-Connection"
  kind := .cmdlet
  parameters := [
    parameter "TargetName" [{ mandatory := true, position := some 0 }],
    parameter "Count" [{}],
    { name := "Quiet", isSwitch := true, declarations := [{}] }]

def startProcess : CommandEntry where
  name := "Start-Process"
  kind := .cmdlet
  parameterSets := ["Default", "UseShellExecute"]
  parameters := [
    parameter "FilePath" [mandatoryIn "Default" (some 0), mandatoryIn "UseShellExecute" (some 0)],
    parameter "ArgumentList" [declaredIn "Default" (some 1), declaredIn "UseShellExecute" (some 1)],
    switchIn "Wait" ["Default", "UseShellExecute"],
    switchIn "NoNewWindow" ["Default"]]

def forEachObject : CommandEntry where
  name := "ForEach-Object"
  kind := .cmdlet
  parameterSets := ["ScriptBlockSet", "PropertyAndMethodSet"]
  parameters := [
    parameter "Process" [mandatoryIn "ScriptBlockSet" (some 0)],
    parameter "MemberName" [mandatoryIn "PropertyAndMethodSet" (some 0)],
    optionalIn "Begin" ["ScriptBlockSet"],
    optionalIn "End" ["ScriptBlockSet"]]

def getDate : CommandEntry where
  name := "Get-Date"
  kind := .cmdlet
  parameters := [
    parameter "Format" [{}]]

def getLocation : CommandEntry where
  name := "Get-Location"
  kind := .cmdlet

def prompt : CommandEntry where
  name := "prompt"
  kind := .function

def git : CommandEntry where
  name := "git"
  kind := .application

def robocopy : CommandEntry where
  name := "robocopy.exe"
  kind := .application

def cmd : CommandEntry where
  name := "cmd.exe"
  kind := .application

/-- The standard catalog as a document. -/
def document : Document where
  version := "1.0.0"
  commands := [
    copyItem, moveItem, renameItem, removeItem, newItem, getChildItem, getContent, setContent,
    selectString, invokeWebRequest, convertToJson, testConnection, startProcess, forEachObject,
    getDate, getLocation, prompt, git, robocopy, cmd]
  aliases := .ofList [
    ("%", "ForEach-Object"), ("cat", "Get-Content"), ("copy", "Copy-Item"), ("cp", "Copy-Item"),
    ("cpi", "Copy-Item"), ("del", "Remove-Item"), ("dir", "Get-ChildItem"),
    ("erase", "Remove-Item"), ("foreach", "ForEach-Object"), ("gc", "Get-Content"),
    ("gci", "Get-ChildItem"), ("gl", "Get-Location"), ("iwr", "Invoke-WebRequest"),
    ("ls", "Get-ChildItem"), ("mi", "Move-Item"), ("move", "Move-Item"), ("mv", "Move-Item"),
    ("ni", "New-Item"), ("pwd", "Get-Location"), ("ren", "Rename-Item"), ("ri", "Remove-Item"),
    ("rm", "Remove-Item"), ("rmdir", "Remove-Item"), ("rni", "Rename-Item"),
    ("robocopy", "robocopy.exe"), ("saps", "Start-Process"), ("sls", "Select-String"),
    ("start", "Start-Process"), ("type", "Get-Content")]

end ScriptLint.Standard
