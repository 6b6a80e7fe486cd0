import NetworkEx.FileTraffic

namespace NetworkEx.FileRoundTrip
open ByteStreams CText PathResolution FileProtocol FileAgreement FileConfinement TransitionRuns FileTraffic

def between : List Child := [uploadOf (ascii "b")]

end NetworkEx.FileRoundTrip
