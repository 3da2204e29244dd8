/-
What an editor says about itself when it introduces itself.

None of it changes what the server does, but all of it has to have the shape that is laid
down here.  Most of it are truth values that say whether the editor supports something.
-/
import TimeTape.Json.Shape

namespace TimeTape.Introduction

open Shape (flags texts signed unsigned)

/-- A token by which progress is reported. -/
def token : Shape := .either signed .text

/-- The values of a setting that the editor knows. -/
def valueSet (value : Shape) : Shape :=
  .record [("valueSet", .list value)]

/-- The properties of something that the editor can ask for later. -/
def properties : Shape :=
  .record [("properties", .list .text)]

/-- A feature that can be switched on while the server runs, with other truth values. -/
def feature (others : List String) : List (String × Shape) :=
  flags ("dynamicRegistration" :: others)

/-- What the editor supports for the whole workspace. -/
def workspace : Shape := .record <|
  flags ["applyEdit", "workspaceFolders", "configuration"] ++ [
    ("workspaceEdit", .record <|
      flags ["documentChanges", "normalizesLineEndings"] ++ [
        ("resourceOperations", .list .text),
        ("failureHandling", .text),
        ("changeAnnotationSupport", .record (flags ["groupsOnLabel"]))]),
    ("didChangeConfiguration", .record (feature [])),
    ("didChangeWatchedFiles", .record (feature [])),
    ("symbol", .record <| feature [] ++ [
      ("symbolKind", valueSet signed),
      ("tagSupport", valueSet signed)]),
    ("executeCommand", .record (feature [])),
    ("semanticTokens", .record (flags ["refreshSupport"])),
    ("codeLens", .record (flags ["refreshSupport"])),
    ("fileOperations", .record <| feature [
      "didCreate", "willCreate", "didRename", "willRename", "didDelete", "willDelete"])]

/-- What the editor supports of completion. -/
def completion : Shape := .record <|
  feature ["contextSupport"] ++ [
    ("completionItem", .record <|
      flags ["snippetSupport", "commitCharactersSupport", "deprecatedSupport",
        "preselectSupport", "insertReplaceSupport"] ++ [
        ("documentationFormat", .list .text),
        ("tagSupport", valueSet signed),
        ("resolveSupport", properties),
        ("insertTextModeSupport", valueSet signed)]),
    ("completionItemKind", valueSet signed)]

/-- What the editor supports of help on signatures. -/
def signatureHelp : Shape := .record <|
  feature ["contextSupport"] ++ [
    ("signatureInformation", .record <|
      flags ["activeParameterSupport"] ++ [
        ("documentationFormat", .list .text),
        ("parameterInformation", .record (flags ["labelOffsetSupport"]))])]

/-- What the editor supports of an outline. -/
def documentSymbol : Shape := .record <|
  feature ["hierarchicalDocumentSymbolSupport", "labelSupport"] ++ [
    ("symbolKind", valueSet signed),
    ("tagSupport", valueSet signed)]

/-- What the editor supports of actions on code. -/
def codeAction : Shape := .record <|
  feature ["isPreferredSupport", "disabledSupport", "dataSupport", "honorsChangeAnnotations"] ++ [
    ("codeActionLiteralSupport", .record [("codeActionKind", valueSet .text)]),
    ("resolveSupport", properties)]

/-- What the editor supports of tokens that carry a meaning. -/
def semanticTokens : Shape := .each <| .record <|
  feature ["overlappingTokenSupport", "multilineTokenSupport"] ++ [
    ("requests", .record [
      ("range", .latest (.either .flag (.record []))),
      ("full", .latest (.either .flag (.record (flags ["delta"]))))]),
    ("tokenTypes", .list .text),
    ("tokenModifiers", .list .text),
    ("formats", .list .text)]

/-- What the editor supports for single documents. -/
def textDocument : Shape := .record [
  ("synchronization", .record (feature ["willSave", "willSaveWaitUntil", "didSave"])),
  ("completion", completion),
  ("hover", .record (feature [] ++ [("contentFormat", .list .text)])),
  ("signatureHelp", signatureHelp),
  ("declaration", .record (feature ["linkSupport"])),
  ("definition", .record (feature ["linkSupport"])),
  ("typeDefinition", .record (feature ["linkSupport"])),
  ("implementation", .record (feature ["linkSupport"])),
  ("references", .record (feature [])),
  ("documentHighlight", .record (feature [])),
  ("documentSymbol", documentSymbol),
  ("codeAction", codeAction),
  ("codeLens", .record (feature [])),
  ("documentLink", .record (feature ["tooltipSupport"])),
  ("colorProvider", .record (feature [])),
  ("formatting", .record (feature [])),
  ("rangeFormatting", .record (feature [])),
  ("onTypeFormatting", .record (feature [])),
  ("rename", .record <|
    feature ["prepareSupport", "honorsChangeAnnotations"] ++ [
      ("prepareSupportDefaultBehavior", signed)]),
  ("publishDiagnostics", .record <|
    flags ["relatedInformation", "versionSupport", "codeDescriptionSupport", "dataSupport"] ++ [
      ("tagSupport", valueSet signed)]),
  ("foldingRange", .record (feature ["lineFoldingOnly"] ++ [("rangeLimit", unsigned)])),
  ("selectionRange", .record (feature [])),
  ("linkedEditingRange", .record (feature [])),
  ("callHierarchy", .record (feature [])),
  ("semanticTokens", semanticTokens),
  ("moniker", .record (feature []))]

/-- What the editor supports in its windows. -/
def window : Shape := .record [
  ("workDoneProgress", .flag),
  ("showMessage", .record [
    ("messageActionItem", .record (flags ["additionalPropertiesSupport"]))]),
  ("showDocument", .record (flags ["support"]))]

/-- What the editor supports in general. -/
def general : Shape := .record [
  ("regularExpressions", .record (texts ["engine", "version"])),
  ("markdown", .record (texts ["parser", "version"]))]

/-- All that the editor says about itself. -/
def shape : Shape := .record <|
  texts ["locale", "rootPath", "rootUri", "trace"] ++ [
    ("workDoneToken", token),
    ("processId", signed),
    ("clientInfo", .record (texts ["name", "version"])),
    ("initializationOptions", .anything),
    ("capabilities", .record [
      ("workspace", workspace),
      ("textDocument", textDocument),
      ("window", window),
      ("general", general),
      ("experimental", .anything)]),
    ("workspaceFolders", .list (.record (texts ["uri", "name"])))]

end TimeTape.Introduction
