namespace ObjectVault

/-- Why bytes are no container of entries. -/
inductive ContainerFault
  | noFrame
  | corruptFrame
  | wrongFrameChecksum
  | needsDictionary
  | unsupportedFrame
  | incompleteFrame
  | unreadableFile (reason : String)
  | headerChecksum
  | brokenNumber (field text : String)
  | shortBlock
  | shortEntry
  | brokenRuns
  | danglingExtension
  | repeatedExtension
deriving DecidableEq

def ContainerFault.message : ContainerFault → String
  | .noFrame => "Unknown frame descriptor"
  | .corruptFrame => "Data corruption detected"
  | .wrongFrameChecksum => "Restored data doesn't match checksum"
  | .needsDictionary => "Dictionary mismatch"
  | .unsupportedFrame => "Unsupported frame parameter"
  | .incompleteFrame => "incomplete frame"
  | .unreadableFile reason => reason
  | .headerChecksum => "archive header checksum mismatch"
  | .brokenNumber field text => s!"numeric field was not a number: {text} when getting {field}"
  | .shortBlock => "failed to read entire block"
  | .shortEntry => "unexpected EOF during skip"
  | .brokenRuns => "mismatch in sparse file chunks and size in header"
  | .danglingExtension =>
    "members found describing a future member but no future member found"
  | .repeatedExtension => "two long name entries describing the same member"

/-- Why a name cannot stand in the header of an entry. -/
inductive NameFault
  | tooLong
  | zeroByte
  | climbs
deriving DecidableEq

def NameFault.message : NameFault → String
  | .tooLong => "provided value is too long"
  | .zeroByte => "provided value contains a nul byte"
  | .climbs => "paths in archives must not have `..`"

end ObjectVault
